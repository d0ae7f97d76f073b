import HookGen.Proofs.Source.Lexing
import HookGen.Proofs.Source.Operands

/-!
Types that are built from keyword types, names and literals, and from nothing that is kept as its source
would have it.
-/

namespace HookGen.Source

-- A keyword type or a literal on one line; a number may have a sign right in front of it.
def isLeaf : List Token → Bool
  | [token] =>
    keywordTypes.contains token.text ||
      ((isString token.text || isNumber token.text) && !token.text.contains '\n')
  | [sign, number] =>
    (sign.text == "+" || sign.text == "-") && number.lead.isEmpty && isNumber number.text &&
      !number.text.contains '\n'
  | _ => false

-- The name of a property as it is written, quotes included.
def isPropertyName (t : Text) : Bool := isWord t || isNumber t || isString t

def isTypeName (t : Text) : Bool := isWord t && !reservedWords.contains t

theorem isTypeName_iff {t : Text} : isTypeName t ↔ isWord t ∧ t ∉ reservedWords := by
  simp [isTypeName]

-- Points with words behind them, and nothing in between: the rest of a dotted name.
def isDotted : List Token → Bool
  | [] => true
  | [_] => false
  | point :: word :: rest =>
    point == ⟨[], .mark, "."⟩ && word.lead.isEmpty && word.kind == .word && isWord word.text && isDotted rest

-- The name in front of type arguments, dotted or not.
def isAppliedName : List Token → Bool
  | [] => false
  | token :: dots => isTypeName token.text && isDotted dots

mutual

-- No indexed accesses, no operators and no signatures occur in the type. A union has members, and an
-- application arguments.
def TypeExpr.isStructural : TypeExpr → Bool
  | .verbatim source => isLeaf source
  | .name token => isTypeName token.text
  | .grouped inner => inner.isStructural
  | .object entries => areProperties entries
  | .union members => !members.isEmpty && areStructural members
  | .array element => element.isStructural
  | .tuple elements => areStructural elements
  | .access _ _ _ _ => false
  | .apply name arguments => isAppliedName name && !arguments.isEmpty && areStructural arguments

def areStructural : List TypeExpr → Bool
  | [] => true
  | type :: rest => type.isStructural && areStructural rest

def areProperties : List Entry → Bool
  | [] => true
  | .property [name] _ _ (some type) :: rest =>
    isPropertyName name.text && type.isStructural && areProperties rest
  | .property [name] _ _ none :: rest => isPropertyName name.text && areProperties rest
  | _ :: _ => false

end

end HookGen.Source
