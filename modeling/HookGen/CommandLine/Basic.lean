import HookGen.CommandLine.Help
import HookGen.CommandLine.Options
import HookGen.Integration

/-!
The command line: what it does with its arguments, what it prints and how it exits.
-/

namespace HookGen

-- What the command line prints, and the code it ends with.
structure CommandLine.Outcome where
  code : Nat
  output : Text
  errors : Text
  deriving DecidableEq, Repr

-- Whether the command line tells the user about a failure. The others are faults of the program.
def RunError.isReported : RunError → Bool
  | .disk (.linkLoop _) => false
  | .introspection (.literal .tooLarge) => false
  | .generation (.literal .tooLarge) => false
  | .generation (.render .emptyPath) => false
  | .generation (.render (.literal .tooLarge)) => false
  | .notAList _ => false
  | _ => true

-- Whether a failure is that something is there already.
def RunError.isAlreadyThere : RunError → Bool
  | .configExists _ => true
  | .disk (.refused .alreadyThere _) => true
  | _ => false

namespace CommandLine

open Run

-- What is printed and how the program ends where there is nothing to run.
def Stop.outcome : Stop → Outcome
  | .help => ⟨0, helpText, []⟩
  | .version => ⟨0, versionLine, []⟩
  | .usage error => ⟨2, [], usageText ++ programName ++ ": error: " ++ error.message ++ "\n"⟩

def failed (error : RunError) : Outcome := ⟨1, [], "Error: " ++ error.message ++ "\n"⟩

-- Write the default configuration.
def writeConfig (arguments : Arguments) : Run Outcome :=
  orElse (do
    let root ← match arguments.projectRoot with
      | none => query fun disk => .ok (Path.ofPlace disk.current)
      | some t => done (Path.ofText t)
    let path ← Config.writeDefault root false
    return ⟨0, "SupaHooks: Created " ++ path.text ++ "\n", []⟩) fun e =>
      if e.isAlreadyThere then done (failed e) else fail e

def Arguments.request (arguments : Arguments) : Request where
  overrides := ⟨arguments.input, arguments.output, arguments.supabasePath, arguments.schema⟩
  projectRoot := arguments.projectRoot
  configPath := arguments.config
  verbose := arguments.verbose

-- Generate the modules of the project.
def generate (now : Text) (arguments : Arguments) : Run Outcome :=
  orElse (do
    let result ← Integration.integrate now arguments.request
    return ⟨0, if arguments.verbose then [] else result.report, []⟩) fun e =>
      if e.isReported then done (failed e) else fail e

-- Do what the arguments ask for at the time `now`.
def perform (now : Text) (arguments : Arguments) : Run Outcome :=
  if arguments.init then writeConfig arguments else generate now arguments

end CommandLine

end HookGen
