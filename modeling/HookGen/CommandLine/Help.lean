import HookGen.Text.Basic

/-!
What the command line prints about itself.
-/

namespace HookGen.CommandLine

def programName : Text := "supahooks"

def usageText : Text := "usage: supahooks [-h] [-i INPUT] [-o OUTPUT] [-c CONFIG]
                 [--supabase-path SUPABASE_PATH] [--schema SCHEMA]
                 [--project-root PROJECT_ROOT] [-v] [--init] [--version]
"

def helpText : Text := usageText ++ "
Generate TypeScript types and React Query hooks from Supabase database types.

options:
  -h, --help            show this help message and exit
  -i INPUT, --input INPUT
                        Path to the generated database.types.ts file (default:
                        ./lib/database.types.ts)
  -o OUTPUT, --output OUTPUT
                        Output directory for generated files (default:
                        ./lib/database)
  -c CONFIG, --config CONFIG
                        Config file relative to the project root (default:
                        supahooks.config.json if present)
  --supabase-path SUPABASE_PATH
                        Import path of the module exporting the supabase
                        client (default: @/lib/supabase)
  --schema SCHEMA       Database schema to generate for (default: public)
  --project-root PROJECT_ROOT
                        Directory that relative paths are resolved against
                        (default: current directory)
  -v, --verbose         Enable detailed logging output
  --init                Write a default supahooks.config.json and exit
  --version             show program's version number and exit
"

def versionLine : Text := programName ++ " 0.3.0\n"

end HookGen.CommandLine
