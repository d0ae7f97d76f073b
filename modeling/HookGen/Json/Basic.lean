import HookGen.Number.Shown
import HookGen.Text.Quoted

/-!
JSON values. The fields of an object keep the order in which their names first appeared.
-/

namespace HookGen

inductive Json
  | null
  | bool (value : Bool)
  | int (value : Int)
  | float (value : Binary64)
  | str (value : Text)
  | arr (elements : List Json)
  | obj (fields : List (Text × Json))

namespace Json

-- Set a field: a name that is present keeps its place.
def setField (name : Text) (value : Json) : List (Text × Json) → List (Text × Json)
  | [] => [(name, value)]
  | field :: rest =>
    if field.1 = name then (name, value) :: rest else field :: setField name value rest

def fields : Json → List (Text × Json)
  | .obj fields => fields
  | _ => []

def field? (name : Text) (value : Json) : Option Json := value.fields.lookup name

def elements : Json → List Json
  | .arr elements => elements
  | _ => []

def text? : Json → Option Text
  | .str value => some value
  | _ => none

mutual

-- The value as messages show it.
def shown : Json → Text
  | .null => "None"
  | .bool true => "True"
  | .bool false => "False"
  | .int value => Text.ofInt value
  | .float value => value.shownWith "inf" "nan"
  | .str value => value.quoted
  | .arr elements => "[" ++ Text.join ", " (shownElements elements) ++ "]"
  | .obj fields => "\x7b" ++ Text.join ", " (shownFields fields) ++ "\x7d"

def shownElements : List Json → List Text
  | [] => []
  | element :: rest => element.shown :: shownElements rest

def shownFields : List (Text × Json) → List Text
  | [] => []
  | (name, value) :: rest => (name.quoted ++ ": " ++ value.shown) :: shownFields rest

end

end Json

end HookGen
