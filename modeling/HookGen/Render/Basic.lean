import HookGen.Schema.Basic
import HookGen.Traced

/-!
Rendering shapes to type text. Indexed accesses are replaced by what they point at, except those
of enums, which become the name of the enum. The names that a text refers to are noted on the way, so
that the file it goes to can import them.
-/

namespace HookGen

namespace Render

-- What rendering takes note of: names of base types and enums that the text uses, and accesses that
-- could not be resolved.
inductive Note
  | baseType (name : Text)
  | enumeration (name : Text)
  | unresolved (path : Text)
  deriving DecidableEq, Repr

inductive RenderError
  | literal (error : StringLiteral.DecodeError)
  -- an indexed access without even a first name
  | emptyPath
  deriving DecidableEq, Repr

def RenderError.message : RenderError → Text
  | .literal error => error.message
  | .emptyPath => "list index out of range"

abbrev Rendering (α : Type) := Traced Note RenderError α

-- Note the use of a name if it is one of a base type.
def noteReference (schema : Schema) (reference : Option Text) : Rendering Unit :=
  match reference with
  | some name =>
    if !name.isEmpty && schema.isBaseType name then Traced.note (.baseType name) else return ()
  | none => return ()

def shownKey (key : Text) : Text := "[\"" ++ key ++ "\"]"

-- An indexed access as its source would have it.
def shownPath : List Text → Except RenderError Text
  | [] => .error .emptyPath
  | root :: keys => .ok (root ++ keys.flatMap shownKey)

-- The text for an access that has no target, or that is being rendered already.
def unresolved (path : List Text) : Rendering Text := do
  Traced.note (.unresolved (← Traced.ofExcept (shownPath path)))
  return "unknown"

-- The target of an access.
def targetOf (schema : Schema) (path : List Text) : Rendering (Option Shape) :=
  Traced.ofExcept ((schema.resolve path).mapError .literal)

-- What an element type is as far as parentheses matter: an access stands for its target.
def resolvedElement (schema : Schema) : Shape → Rendering Shape
  | .lookup label path => do
    if (schema.enumOfPath? path).isSome then return .lookup label path
    return (← targetOf schema path).getD (.lookup label path)
  | element => return element

-- Whether the type needs parentheses in front of the brackets of an array.
def needsParentheses : Shape → Bool
  | .union _ _ => true
  | .leaf label => Text.includes "=>" (label.text.getD [])
  | _ => false

def inParentheses (t : Text) : Text := "(" ++ t ++ ")"

-- Two spaces for each level, none below the first.
def indentation (indent : Int) : Text := Text.spaces (2 * indent.toNat)

-- The text of an object type: on one line with one entry, on lines of their own with several.
def layoutObject (indent : Int) (entries : List Text) : Text :=
  match entries with
  | [] => "\x7b\x7d"
  | [entry] => "\x7b " ++ entry ++ " \x7d"
  | entries =>
    let line (entry : Text) : Text := indentation (indent + 1) ++ entry ++ ";\n"
    "\x7b\n" ++ entries.flatMap line ++ indentation indent ++ "\x7d"

-- The text of a property in front of its type.
def memberHead (member : Member) : Text :=
  let modifier : Text := if member.readonly then "readonly " else []
  let colon : Text := if member.optional then "?: " else ": "
  modifier ++ member.name ++ colon

-- The text of a union: each text once, in the order in which they first occur.
def layoutUnion (texts : List Text) : Text :=
  if texts.isEmpty then "never" else Text.join " | " texts.eraseDups

mutual

-- Render a shape. `expand` renders the target of an indexed access that is no enum.
def renderOver (schema : Schema) (expand : List Text → Int → Rendering Text) (indent : Int) :
    Shape → Rendering Text
  | .object _ members signatures => do
    let entries ← renderMembers schema expand (indent + 1) members
    return layoutObject indent (entries ++ signatures)
  | .union _ args => return layoutUnion (← renderArgs schema expand indent args)
  | .array _ [] => return "unknown[]"
  | .array _ (element :: _) => do
    let t ← renderOver schema expand indent element
    let resolved ← resolvedElement schema element
    return (if needsParentheses resolved then inParentheses t else t) ++ "[]"
  | .tuple _ args =>
    return "[" ++ Text.join ", " (← renderArgs schema expand indent args) ++ "]"
  | .lookup _ path =>
    match schema.enumOfPath? path with
    | some enumeration => do
      Traced.note (.enumeration enumeration.typeName)
      return enumeration.typeName
    | none => expand path indent
  | .generic label args => do
    noteReference schema label.reference
    let args ← renderArgs schema expand indent args
    return label.text.getD "None" ++ "<" ++ Text.join ", " args ++ ">"
  | .leaf label => do
    noteReference schema label.reference
    return match label.text with
      | some (c :: rest) => c :: rest
      | _ => "unknown"

def renderArgs (schema : Schema) (expand : List Text → Int → Rendering Text) (indent : Int) :
    List Shape → Rendering (List Text)
  | [] => return []
  | arg :: rest => do
    let t ← renderOver schema expand indent arg
    return t :: (← renderArgs schema expand indent rest)

def renderMembers (schema : Schema) (expand : List Text → Int → Rendering Text) (indent : Int) :
    List Member → Rendering (List Text)
  | [] => return []
  | .mk name shape optional readonly :: rest => do
    let t ← renderOver schema expand indent shape
    let entry := memberHead (.mk name shape optional readonly) ++ t
    return entry :: (← renderMembers schema expand indent rest)

end

-- Render a shape while the targets of the accesses in `resolving` are being rendered. An access
-- that is among them is cut off. The budget bounds the depth of targets within targets.
def renderWithin (schema : Schema) : Nat → List (List Text) → Int → Shape → Rendering Text
  | 0, _ => renderOver schema fun path _ => do
    let _ ← targetOf schema path
    unresolved path
  | budget + 1, resolving => renderOver schema fun path indent => do
    match ← targetOf schema path with
    | none => unresolved path
    | some target =>
      if resolving.contains path then unresolved path
      else renderWithin schema budget (path :: resolving) indent target

-- Every access behind the first that is being resolved stands in the root type.
def depthBound (schema : Schema) : Nat := schema.root.lookups.length + 1

def render (schema : Schema) (indent : Int) (shape : Shape) : Rendering Text :=
  renderWithin schema (depthBound schema) [] indent shape

def Note.baseType? : Note → Option Text
  | .baseType name => some name
  | _ => none

def Note.enumeration? : Note → Option Text
  | .enumeration name => some name
  | _ => none

-- The message of the log that a note gives rise to.
def Note.logRecord? : Note → Option LogRecord
  | .unresolved path =>
    some ⟨.warning, "Could not resolve type reference " ++ path ++ ", using unknown"⟩
  | _ => none

end Render

end HookGen
