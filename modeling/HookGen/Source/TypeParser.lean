import HookGen.Source.TypeExpr

/-!
Parsing type expressions. Postfix brackets bind closest, then `keyof` and `typeof`, then `&`, then
`|`, then conditional types; a function type and `readonly` take everything to their right.
-/

namespace HookGen.Source

-- What surrounds a type. Where `lineEnds`, a line break can end the type; where not `conditional`,
-- the word `extends` does not belong to it.
structure Context where
  lineEnds : Bool
  conditional : Bool
  deriving DecidableEq, Repr

-- Inside brackets nothing but the bracket ends a type.
def Context.inside : Context := ⟨false, true⟩

-- The type of a member or of an alias may end with its line.
def Context.line : Context := ⟨true, true⟩

def startsWithMark (mark : Text) (tokens : List Token) : Bool :=
  tokens.head?.any (Token.isMark mark)

def startsWithWord (word : Text) (tokens : List Token) : Bool :=
  tokens.head?.any (Token.isWord word)

def startsWithKind (kind : Kind) (tokens : List Token) : Bool :=
  tokens.head?.any (·.kind == kind)

def breaksLine (tokens : List Token) : Bool := tokens.head?.any Token.startsLine

def expectMark (mark : Text) : List Token → Option (List Token)
  | [] => none
  | token :: rest => if token.isMark mark then some rest else none

-- The closing mark of an opening one. Angle brackets count where types stand.
def closingMark? (angles : Bool) (token : Token) : Option Text :=
  if token.kind != .mark then none
  else if token.text = ("(" : Text) then some ")"
  else if token.text = ("[" : Text) then some "]"
  else if token.text = ("\x7b" : Text) then some "\x7d"
  else if angles && token.text = ("<" : Text) then some ">"
  else none

def isClosingMark (angles : Bool) (token : Token) : Bool :=
  token.isMark ")" || token.isMark "]" || token.isMark "\x7d" || (angles && token.isMark ">")

-- What follows the brackets that are open, given by the marks that close them.
def skipOpen (angles : Bool) : List Text → List Token → Option (List Token)
  | [], tokens => some tokens
  | _ :: _, [] => none
  | closing :: outer, token :: rest =>
    if token.isMark closing then skipOpen angles outer rest
    else if isClosingMark angles token then none
    else
      match closingMark? angles token with
      | some inner => skipOpen angles (inner :: closing :: outer) rest
      | none => skipOpen angles (closing :: outer) rest

-- What follows a bracketed group at the start of the tokens.
def skipGroup (angles : Bool) : List Token → Option (List Token)
  | [] => none
  | token :: rest =>
    match closingMark? angles token with
    | some closing => skipOpen angles [closing] rest
    | none => none

-- What follows type parameters or arguments, if there are any.
def skipAngles (tokens : List Token) : Option (List Token) :=
  if startsWithMark "<" tokens then skipGroup true tokens else some tokens

-- What follows the parameters of a function, with or without type parameters in front.
def skipParameters (tokens : List Token) : Option (List Token) := do
  let rest ← skipAngles tokens
  if startsWithMark "(" rest then skipGroup false rest else none

-- Whether a function type begins here: parameters and an arrow.
def startsFunction (tokens : List Token) : Bool :=
  (startsWithMark "<" tokens || startsWithMark "(" tokens) &&
    (skipParameters tokens).any (startsWithMark "=>")

-- The types that are one keyword. They cannot be looked up like names.
def keywordTypes : List Text := [
  "string", "number", "boolean", "any", "unknown", "never", "void", "object", "symbol",
  "true", "false", "null", "undefined", "this"].map Text.ofString

-- Words in front of the name of a property.
def modifierWords : List Text := [
  "readonly", "public", "private", "protected", "static", "override"].map Text.ofString

-- Words in front of the name of a method.
def accessorWords : List Text := ["get", "set", "async"].map Text.ofString

-- Whether the name of a property can begin with the token.
def startsName (token : Token) : Bool :=
  token.kind == .word || token.kind == .string || token.kind == .number || token.isMark "["

-- Whether a word is used as one of the given words in front of a name: then the name stands on the
-- same line.
def usesModifier (words : List Text) : List Token → Bool
  | word :: next :: _ =>
    word.kind == .word && words.contains word.text && startsName next && !next.startsLine
  | _ => false

-- Drop the modifiers in front of a name; the first part of the answer tells whether `readonly` is
-- one of them.
def dropModifiers (readonly : Bool) : List Token → Bool × List Token
  | [] => (readonly, [])
  | token :: rest =>
    if usesModifier modifierWords (token :: rest) then
      dropModifiers (readonly || token.isWord "readonly") rest
    else
      (readonly, token :: rest)

-- Drop the words and the star in front of the name of a method; the first part of the answer tells
-- whether there are any.
def dropAccessors (found : Bool) : List Token → Bool × List Token
  | [] => (found, [])
  | token :: rest =>
    if usesModifier accessorWords (token :: rest) then dropAccessors true rest
    else if token.isMark "*" then (true, rest)
    else (found, token :: rest)

-- Whether an index signature or a mapped type begins here, its sign and `readonly` dropped.
def startsIndexSignature : List Token → Bool
  | bracket :: name :: next :: _ =>
    bracket.isMark "[" && name.kind == .word && (next.isMark ":" || next.isWord "in")
  | _ => false

-- The rest of a dotted name, which is points with words behind them, and what follows it.
def spanDots : List Token → List Token × List Token
  | point :: word :: rest =>
    if point.isMark "." && word.kind == .word then
      let (dots, rest) := spanDots rest
      (point :: word :: dots, rest)
    else ([], point :: word :: rest)
  | tokens => ([], tokens)

def skipDots (tokens : List Token) : List Token := (spanDots tokens).2

-- What follows the value that `typeof` names.
def skipQueried (tokens : List Token) : Option (List Token) :=
  match tokens with
  | [] => none
  | token :: rest =>
    if token.isWord "import" then (skipGroup false rest).bind fun rest => skipAngles (skipDots rest)
    else if token.kind == .word then skipAngles (skipDots rest)
    else none

-- The name and colon in front of a tuple element, with a question mark or without.
def skipElementName (tokens : List Token) : Option (List Token) :=
  match tokens with
  | name :: colon :: rest =>
    if name.kind != .word then none
    else if colon.isMark ":" then some rest
    else if colon.isMark "?" then expectMark ":" rest
    else none
  | _ => none

-- Read the name of a property: a word, a literal or an expression in brackets.
def readName : List Token → Option (List Token × List Token)
  | [] => none
  | token :: rest =>
    if token.isMark "[" then
      (skipGroup false (token :: rest)).map fun after => (consumed (token :: rest) after, after)
    else if startsName token then some ([token], rest)
    else none

mutual

-- The parsers take a budget that bounds the depth of their calls; `budgetFor` gives one that is
-- enough. Each answers with what it read and the tokens that follow.
def parseType : Nat → Context → List Token → Option (TypeExpr × List Token)
  | 0, _, _ => none
  | budget + 1, context, tokens => do
    let (type, rest) ← parseUnion budget context tokens
    if context.conditional && startsWithWord "extends" rest &&
        !(context.lineEnds && breaksLine rest) then
      let (_, rest) ← parseType budget ⟨false, false⟩ (rest.drop 1)
      let (_, rest) ← parseType budget .inside (← expectMark "?" rest)
      let (_, rest) ← parseType budget context (← expectMark ":" rest)
      return (.verbatim (consumed tokens rest), rest)
    else
      return (type, rest)

def parseUnion : Nat → Context → List Token → Option (TypeExpr × List Token)
  | 0, _, _ => none
  | budget + 1, context, tokens => do
    let leading := startsWithMark "|" tokens
    let (first, rest) ← parseIntersection budget context (if leading then tokens.drop 1 else tokens)
    let (others, rest) ← parseAlternatives budget context rest
    if leading || !others.isEmpty then return (.union (first :: others), rest)
    else return (first, rest)

-- The members of a union behind its first.
def parseAlternatives : Nat → Context → List Token → Option (List TypeExpr × List Token)
  | 0, _, _ => none
  | budget + 1, context, tokens =>
    if startsWithMark "|" tokens then do
      let (type, rest) ← parseIntersection budget context (tokens.drop 1)
      let (others, rest) ← parseAlternatives budget context rest
      return (type :: others, rest)
    else some ([], tokens)

def parseIntersection : Nat → Context → List Token → Option (TypeExpr × List Token)
  | 0, _, _ => none
  | budget + 1, context, tokens => do
    let leading := startsWithMark "&" tokens
    let (first, rest) ← parseOperand budget context (if leading then tokens.drop 1 else tokens)
    let after ← skipIntersected budget context rest
    if leading || startsWithMark "&" rest then
      return (.verbatim (consumed tokens after), after)
    else
      return (first, rest)

-- What follows the operands of an intersection behind its first.
def skipIntersected : Nat → Context → List Token → Option (List Token)
  | 0, _, _ => none
  | budget + 1, context, tokens =>
    if startsWithMark "&" tokens then do
      let (_, rest) ← parseOperand budget context (tokens.drop 1)
      skipIntersected budget context rest
    else some tokens

def parseOperand : Nat → Context → List Token → Option (TypeExpr × List Token)
  | 0, _, _ => none
  | budget + 1, context, tokens =>
    if startsFunction tokens then do
      let rest ← expectMark "=>" (← skipParameters tokens)
      let rest ← skipResult budget context rest
      return (.verbatim (consumed tokens rest), rest)
    else if startsWithWord "readonly" tokens then do
      let (_, rest) ← parseType budget context (tokens.drop 1)
      return (.verbatim (consumed tokens rest), rest)
    else if startsWithWord "keyof" tokens then do
      let (_, rest) ← parseOperand budget context (tokens.drop 1)
      return (.verbatim (consumed tokens rest), rest)
    else if startsWithWord "new" tokens ||
        (startsWithWord "abstract" tokens && startsWithWord "new" (tokens.drop 1)) then do
      let parameters := tokens.drop (if startsWithWord "new" tokens then 1 else 2)
      let rest ← expectMark "=>" (← skipParameters parameters)
      let (_, rest) ← parseOperand budget context rest
      return (.verbatim (consumed tokens rest), rest)
    else if startsWithWord "infer" tokens && startsWithKind .word (tokens.drop 1) then do
      let rest := tokens.drop 2
      if startsWithWord "extends" rest then
        let (_, rest) ← parseUnion budget context (rest.drop 1)
        return (.verbatim (consumed tokens rest), rest)
      else
        return (.verbatim (consumed tokens rest), rest)
    else do
      let (type, rest) ← parsePrimary budget tokens
      parsePostfix budget context tokens type rest

-- The result of a function: a type, or an assertion on a parameter.
def skipResult : Nat → Context → List Token → Option (List Token)
  | 0, _, _ => none
  | budget + 1, context, tokens =>
    let subject := tokens.drop 1
    if startsWithKind .word tokens && startsWithWord "is" subject && !breaksLine subject then do
      let (_, rest) ← parseType budget context (tokens.drop 2)
      return rest
    else if startsWithWord "asserts" tokens && startsWithKind .word subject &&
        !breaksLine subject then
      if startsWithWord "is" (tokens.drop 2) && !breaksLine (tokens.drop 2) then do
        let (_, rest) ← parseType budget context (tokens.drop 3)
        return rest
      else some (tokens.drop 2)
    else do
      let (_, rest) ← parseType budget context tokens
      return rest

-- The brackets behind a type, of which the tokens from `start` on are read.
def parsePostfix : Nat → Context → List Token → TypeExpr → List Token →
    Option (TypeExpr × List Token)
  | 0, _, _, _, _ => none
  | budget + 1, context, start, type, tokens =>
    if startsWithMark "[" tokens && !(context.lineEnds && breaksLine tokens) then
      if startsWithMark "]" (tokens.drop 1) then
        parsePostfix budget context start (.array type) (tokens.drop 2)
      else do
        let (index, rest) ← parseType budget .inside (tokens.drop 1)
        let after ← expectMark "]" rest
        parsePostfix budget context start
          (.access type index (consumed (tokens.drop 1) rest) (consumed start after)) after
    else some (type, tokens)

def parsePrimary : Nat → List Token → Option (TypeExpr × List Token)
  | 0, _ => none
  | _ + 1, [] => none
  | budget + 1, token :: rest =>
    match token.kind with
    | .finish => none
    | .regex => none
    | .string => some (.verbatim [token], rest)
    | .template => some (.verbatim [token], rest)
    | .number => some (.verbatim [token], rest)
    | .mark =>
      if token.isMark "(" then do
        let (inner, rest) ← parseType budget .inside rest
        return (.grouped inner, ← expectMark ")" rest)
      else if token.isMark "[" then do
        let (elements, rest) ← parseElements budget rest
        return (.tuple elements, rest)
      else if token.isMark "\x7b" then do
        let (entries, rest) ← parseEntries budget rest
        return (.object entries, rest)
      else if (token.isMark "-" || token.isMark "+") && startsWithKind .number rest then
        some (.verbatim (token :: rest.take 1), rest.drop 1)
      else none
    | .word =>
      if keywordTypes.contains token.text then some (.verbatim [token], rest)
      else if token.isWord "unique" && startsWithWord "symbol" rest then
        some (.verbatim (token :: rest.take 1), rest.drop 1)
      else if token.isWord "typeof" then do
        let after ← skipQueried rest
        return (.verbatim (consumed (token :: rest) after), after)
      else if token.isWord "import" then do
        let after ← skipAngles (skipDots (← skipGroup false rest))
        return (.verbatim (consumed (token :: rest) after), after)
      else
        let (dots, after) := spanDots rest
        if startsWithMark "<" after then do
          let (arguments, rest) ← parseArguments budget (after.drop 1)
          return (.apply (token :: dots) arguments, rest)
        else if dots.isEmpty then some (.name token, rest)
        else some (.verbatim (token :: dots), after)

-- Type arguments up to the closing angle bracket.
def parseArguments : Nat → List Token → Option (List TypeExpr × List Token)
  | 0, _ => none
  | budget + 1, tokens => do
    let (type, rest) ← parseType budget .inside tokens
    if startsWithMark ">" rest then return ([type], rest.drop 1)
    else
      let rest ← expectMark "," rest
      if startsWithMark ">" rest then return ([type], rest.drop 1)
      else
        let (others, rest) ← parseArguments budget rest
        return (type :: others, rest)

-- The elements of a tuple up to its closing bracket.
def parseElements : Nat → List Token → Option (List TypeExpr × List Token)
  | 0, _ => none
  | budget + 1, tokens =>
    if startsWithMark "]" tokens then some ([], tokens.drop 1)
    else do
      let (type, rest) ← parseElement budget tokens
      if startsWithMark "]" rest then return ([type], rest.drop 1)
      else
        let (others, rest) ← parseElements budget (← expectMark "," rest)
        return (type :: others, rest)

-- An element of a tuple. Rest elements, named ones and optional ones are kept as tokens.
def parseElement : Nat → List Token → Option (TypeExpr × List Token)
  | 0, _ => none
  | budget + 1, tokens =>
    let spread := startsWithMark "..." tokens
    let operand := if spread then tokens.drop 1 else tokens
    match skipElementName operand with
    | some type => do
      let (_, rest) ← parseType budget .inside type
      return (.verbatim (consumed tokens rest), rest)
    | none => do
      let (type, rest) ← parseType budget .inside operand
      if startsWithMark "?" rest then
        return (.verbatim (consumed tokens (rest.drop 1)), rest.drop 1)
      else if spread then return (.verbatim (consumed tokens rest), rest)
      else return (type, rest)

-- The entries of an object type up to its closing brace. An entry ends with a semicolon, a comma, a
-- line break or the brace.
def parseEntries : Nat → List Token → Option (List Entry × List Token)
  | 0, _ => none
  | budget + 1, tokens =>
    if startsWithMark "\x7d" tokens then some ([], tokens.drop 1)
    else if startsWithMark ";" tokens || startsWithMark "," tokens then
      parseEntries budget (tokens.drop 1)
    else do
      let (entry, rest) ← parseEntry budget tokens
      if startsWithMark "\x7d" rest || startsWithMark ";" rest || startsWithMark "," rest ||
          breaksLine rest then
        let (others, rest) ← parseEntries budget rest
        return (entry :: others, rest)
      else none

def parseEntry : Nat → List Token → Option (Entry × List Token)
  | 0, _ => none
  | budget + 1, tokens =>
    let signed := startsWithMark "+" tokens || startsWithMark "-" tokens
    let (readonly, named) := dropModifiers false (if signed then tokens.drop 1 else tokens)
    if startsIndexSignature named then do
      let rest ← skipGroup false named
      let rest := if startsWithMark "+" rest || startsWithMark "-" rest then rest.drop 1 else rest
      let rest := if startsWithMark "?" rest then rest.drop 1 else rest
      let rest ← skipResultType budget rest
      return (.other (consumed tokens rest), rest)
    else if startsWithMark "(" tokens || startsWithMark "<" tokens then do
      let rest ← skipResultType budget (← skipParameters tokens)
      return (.other (consumed tokens rest), rest)
    else if startsWithWord "new" tokens &&
        (startsWithMark "(" (tokens.drop 1) || startsWithMark "<" (tokens.drop 1)) then do
      let rest ← skipResultType budget (← skipParameters (tokens.drop 1))
      return (.other (consumed tokens rest), rest)
    else do
      let (accessor, bare) := dropAccessors false named
      let (name, afterName) ← readName bare
      let optional := startsWithMark "?" afterName
      let rest := if optional then afterName.drop 1 else afterName
      if startsWithMark "<" rest || (startsWithMark "(" rest && !breaksLine rest) then
        let rest ← skipResultType budget (← skipParameters rest)
        return (.other (consumed tokens rest), rest)
      else if accessor then none
      else if startsWithMark ":" rest then
        let (type, rest) ← parseType budget .line (rest.drop 1)
        return (.property name optional readonly (some type), rest)
      else
        return (.property name optional readonly none, rest)

-- What follows a colon and a result type, if there are any.
def skipResultType : Nat → List Token → Option (List Token)
  | 0, _ => none
  | budget + 1, tokens =>
    if startsWithMark ":" tokens then skipResult budget .line (tokens.drop 1) else some tokens

end

-- No more than eight calls are open for each token.
def budgetFor (tokens : List Token) : Nat := 8 * tokens.length + 8

end HookGen.Source
