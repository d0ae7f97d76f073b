import HookGen.Json.Basic

/-!
Foreign keys of tables. A relationship is read from a JSON value, and every field that does not fit is
reported.
-/

namespace HookGen

structure Relationship where
  foreignKeyName : Text
  columns : List Text
  isOneToOne : Bool
  referencedRelation : Text
  referencedColumns : List Text
  deriving DecidableEq, Repr

namespace Relationship

-- What is wrong with a field, or with the value as a whole.
inductive Problem
  | notAnObject
  | missing
  | notAString
  | loneSurrogate
  | notAList
  | notABoolean
  | unknownBoolean
  deriving DecidableEq, Repr

-- The short name of a problem.
def Problem.code : Problem → Text
  | .notAnObject => "model_type"
  | .missing => "missing"
  | .notAString => "string_type"
  | .loneSurrogate => "string_unicode"
  | .notAList => "list_type"
  | .notABoolean => "bool_type"
  | .unknownBoolean => "bool_parsing"

def Problem.message : Problem → Text
  | .notAnObject => "Input should be a valid dictionary or instance of Relationship"
  | .missing => "Field required"
  | .notAString => "Input should be a valid string"
  | .loneSurrogate =>
    "Input should be a valid string, unable to parse raw data as a unicode string"
  | .notAList => "Input should be a valid list"
  | .notABoolean => "Input should be a valid boolean"
  | .unknownBoolean => "Input should be a valid boolean, unable to interpret input"

-- A problem and the place of it: nowhere for the value as a whole, a field, or an element of one.
structure FieldError where
  field : Option Text
  element : Option Nat
  problem : Problem
  deriving DecidableEq, Repr

-- How many fields do not fit, as messages count them.
def errorCount (errors : List FieldError) : Text := Text.ofNat errors.length ++ " errors for Relationship"

def hasSurrogate (t : Text) : Bool :=
  t.any fun c =>
    match c with
    | .char _ => false
    | .surrogate _ => true

def readText : Json → Except Problem Text
  | .str value => if hasSurrogate value then .error .loneSurrogate else .ok value
  | _ => .error .notAString

def asciiLower (t : Text) : Text :=
  t.map fun c =>
    match c with
    | .char c => .char c.toLower
    | .surrogate offset => .surrogate offset

def falseWords : List Text := ["0", "off", "f", "false", "n", "no"].map Text.ofString

def trueWords : List Text := ["1", "on", "t", "true", "y", "yes"].map Text.ofString

def readBoolText (t : Text) : Except Problem Bool :=
  let word := asciiLower t
  if falseWords.contains word then .ok false
  else if trueWords.contains word then .ok true
  else .error .unknownBoolean

-- Numbers of 64 bits with a sign are below this limit.
def wordLimit : Nat := 0x8000000000000000

-- Zero and one are truth values. Other whole numbers of 64 bits are at least of a fitting kind.
def readBoolInt (n : Int) : Except Problem Bool :=
  if n = 0 then .ok false
  else if n = 1 then .ok true
  else if -(wordLimit : Int) ≤ n ∧ n < wordLimit then .error .unknownBoolean
  else .error .notABoolean

-- The whole number that a double-precision number is, between the limits of 64 bits.
def wholeFloat? (x : Binary64) : Option Int :=
  if x.exponentField = 2047 then none
  else
    let (num, den) := x.toQuotient
    if num % den ≠ 0 ∨ wordLimit ≤ num / den then none
    else some (if x.isNegative then -(num / den : Int) else (num / den : Int))

def readBool : Json → Except Problem Bool
  | .bool value => .ok value
  | .str value => if hasSurrogate value then .error .loneSurrogate else readBoolText value
  | .int value => readBoolInt value
  | .float value =>
    match wholeFloat? value with
    | some n => readBoolInt n
    | none => .error .notABoolean
  | _ => .error .notABoolean

-- The value of a field and the errors it gives rise to.
def readField {α : Type} (read : Json → Except Problem α) (field : Text) (absent : Except Problem α)
    (raw : Json) : Option α × List FieldError :=
  match (raw.field? field).elim absent read with
  | .ok value => (some value, [])
  | .error problem => (none, [⟨some field, none, problem⟩])

-- The texts of a list, and an error for each element that is none; the first stands at `index`.
def readTexts (field : Text) (index : Nat) : List Json → List Text × List FieldError
  | [] => ([], [])
  | element :: rest =>
    let (texts, errors) := readTexts field (index + 1) rest
    match readText element with
    | .ok value => (value :: texts, errors)
    | .error problem => (texts, ⟨some field, some index, problem⟩ :: errors)

def readTextList (field : Text) (raw : Json) : Option (List Text) × List FieldError :=
  match raw.field? field with
  | none => (none, [⟨some field, none, .missing⟩])
  | some (.arr elements) =>
    let (texts, errors) := readTexts field 0 elements
    (if errors.isEmpty then some texts else none, errors)
  | some _ => (none, [⟨some field, none, .notAList⟩])

-- Read a relationship. Only the flag may be absent; other fields than these five do not matter.
def ofJson (raw : Json) : Except (List FieldError) Relationship :=
  match raw with
  | .obj _ =>
    let (foreignKeyName, errors₁) := readField readText "foreignKeyName" (.error .missing) raw
    let (columns, errors₂) := readTextList "columns" raw
    let (isOneToOne, errors₃) := readField readBool "isOneToOne" (.ok false) raw
    let (referencedRelation, errors₄) :=
      readField readText "referencedRelation" (.error .missing) raw
    let (referencedColumns, errors₅) := readTextList "referencedColumns" raw
    match foreignKeyName, columns, isOneToOne, referencedRelation, referencedColumns with
    | some name, some columns, some flag, some relation, some referenced =>
      .ok ⟨name, columns, flag, relation, referenced⟩
    | _, _, _, _, _ => .error (errors₁ ++ errors₂ ++ errors₃ ++ errors₄ ++ errors₅)
  | _ => .error [⟨none, none, .notAnObject⟩]

def toJson (relationship : Relationship) : Json :=
  .obj [
    ("foreignKeyName", .str relationship.foreignKeyName),
    ("columns", .arr (relationship.columns.map .str)),
    ("isOneToOne", .bool relationship.isOneToOne),
    ("referencedRelation", .str relationship.referencedRelation),
    ("referencedColumns", .arr (relationship.referencedColumns.map .str))]

-- The name of the relation of a table: the name of the key without the name of the table and
-- without the usual ending, each taken out where it occurs first.
def relationName (relationship : Relationship) (table : Text) : Text :=
  Text.replaceFirst "_fkey" [] (Text.replaceFirst (table ++ "_") [] relationship.foreignKeyName)

-- What selects the related rows through this key.
def embedSelect (relationship : Relationship) : Text :=
  relationship.referencedRelation ++ "!" ++ relationship.foreignKeyName ++ "(*)"

end Relationship

end HookGen
