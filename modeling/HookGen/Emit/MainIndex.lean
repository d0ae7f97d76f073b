import HookGen.Code.Statement
import HookGen.Schema.Basic

/-!
The top-level index of the generated modules.
-/

namespace HookGen.MainIndex

open Code

-- A comment and the modules exported under it, set off by an empty line.
def group (title : Text) (modules : List Text) : List Text :=
  [] :: ("// " ++ title) :: modules.map reexport

-- Storage is always exported, everything else where it was generated.
def module (schema : Schema) (hasBaseTypes hasRoutines : Bool) : Text :=
  let head : List Text := ["// Auto-generated index file for database modules"]
  let baseTypes : List Text := if hasBaseTypes then ["./base-types"] else []
  let enums : List Text := if schema.hasEnums then ["./enums"] else []
  let shared := baseTypes ++ enums
  let tables := schema.tables.map fun table => Text.ofString "./" ++ table.name
  Text.joinLines (
    head ++
    (if shared.isEmpty then [] else group "Re-export base types and enums" shared) ++
    group "Re-export storage module" ["./storage"] ++
    (if tables.isEmpty then [] else group "Re-export all table modules" tables) ++
    (if hasRoutines then group "Re-export RPC functions" ["./functions"] else [])) ++ "\n"

end HookGen.MainIndex
