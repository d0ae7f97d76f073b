import HookGen.Text.Basic

/-!
The statements and comments that generated modules have in common.
-/

namespace HookGen.Code

-- A documentation comment with one line for each part; an empty part is an empty line.
def docComment (parts : List Text) : Text :=
  let line (part : Text) : Text := if part.isEmpty then " *" else " * " ++ part
  let opening : Text := "/**"
  let closing : Text := " */"
  Text.joinLines (opening :: parts.map line ++ [closing])

-- The comment at the top of a generated module.
def banner (text : Text) : Text := "/** " ++ text ++ " */"

-- Import names, each once and in order. There is no statement for no names.
def importNames (typeOnly : Bool) (names : List Text) (module : Text) : Text :=
  let sorted := Text.sortDistinct names
  let keyword : Text := if typeOnly then "import type" else "import"
  if sorted.isEmpty then []
  else keyword ++ " \x7b " ++ Text.join ", " sorted ++ " \x7d from '" ++ module ++ "';"

def reexport (module : Text) : Text := "export * from '" ++ module ++ "';"

-- A module that exports what others export.
def reexportIndex (banner : Text) (modules : List Text) : Text :=
  Text.joinLines (("// " ++ banner) :: [] :: modules.map reexport) ++ "\n"

-- The sections of a module, set off by empty lines.
def joinSections (sections : List Text) : Text := Text.join "\n\n" sections ++ "\n"

-- A module with a banner, imports if there are any, and declarations.
def assemble (bannerText imports : Text) (declarations : List Text) : Text :=
  joinSections (banner bannerText :: (if imports.isEmpty then [] else [imports]) ++ declarations)

-- The import of the database client.
def clientImport (path : Text) : Text := "import \x7b supabase \x7d from '" ++ path ++ "';"

-- The import of the query hooks that hooks of tables and functions are built on.
def queryImport : Text :=
  importNames false
    (["useQuery", "useMutation", "UseQueryOptions", "UseMutationOptions"].map Text.ofString)
    "@tanstack/react-query"

end HookGen.Code
