import HookGen.Shape.Basic
import HookGen.Source.Declaration

/-!
Shapes of parsed type expressions.
-/

namespace HookGen.Shape

open HookGen.Source

-- The source of tokens that are kept as text. If it has several lines, each run of blanks becomes
-- one space.
def keptText (tokens : List Token) : Text :=
  let source := sourceText tokens
  if source.contains '\n' then Text.join " " source.words else source

-- The path of an indexed access on a name whose indexes all begin and end with the same quote.
def path? : TypeExpr → Option (List Text)
  | .access target _ indexSource _ => do
    let start ← match target with
      | .name token => some [token.text]
      | target => path? target
    let key := (sourceText indexSource).trim
    if StringLiteral.isQuoted key then return start ++ [StringLiteral.inner key] else none
  | _ => none

mutual

def ofType : TypeExpr → Shape
  | .verbatim source => text (keptText source)
  | .name token => name token.text
  | .grouped inner => ofType inner
  | .object entries => .object .none (membersOf entries) (signaturesOf entries)
  | .union members =>
    match ofTypes members with
    | [only] => only
    | args => unionOf args
  | .array element => .array .none [ofType element]
  | .tuple elements => .tuple .none (ofTypes elements)
  | .access target index indexSource source =>
    match path? (.access target index indexSource source) with
    | some path => .lookup .none path
    | none => text (keptText source)
  | .apply name arguments => .generic (.ofName (sourceText name)) (ofTypes arguments)

def ofTypes : List TypeExpr → List Shape
  | [] => []
  | type :: rest => ofType type :: ofTypes rest

-- The properties among the entries of an object type; one without a type can be anything.
def membersOf : List Entry → List Member
  | [] => []
  | .property name optional readonly (some type) :: rest =>
    .mk (sourceText name) (ofType type) optional readonly :: membersOf rest
  | .property name optional readonly none :: rest =>
    .mk (sourceText name) (text "any") optional readonly :: membersOf rest
  | .other _ :: rest => membersOf rest

-- The other entries as text.
def signaturesOf : List Entry → List Text
  | [] => []
  | .property _ _ _ _ :: rest => signaturesOf rest
  | .other source :: rest => keptText source :: signaturesOf rest

end

end HookGen.Shape
