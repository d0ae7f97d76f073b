import HookGen.Source.TypeParser

/-!
Where statements end that declare no type. Their inside does not matter: it is enough to match
brackets, and to see where an expression stops.
-/

namespace HookGen.Source

-- Characters that continue the statement before when a line begins with them.
def continuesLine (token : Token) : Bool :=
  token.kind == .template ||
    (token.kind == .mark && !token.isMark "++" && !token.isMark "--" &&
      (token.text.head?.any (CodePoint.isIn
          [',', '.', ';', '*', '%', '>', '<', '=', '?', '^', '|', '&', '/', ':', '(', '[', '+', '-'])
        )) ||
    token.isWord "in" || token.isWord "instanceof"

-- Marks an expression cannot begin with.
def startsExpression (token : Token) : Bool :=
  token.kind != .finish &&
    !(token.kind == .mark && token.text.head?.any (CodePoint.isIn
      [')', ']', '\x7d', ',', '.', ';', '*', '%', '>', '=', '?', '^', '|', '&', ':']))

-- How far an expression is read: whether it can end here, whether its last token is a literal, and
-- how many angle brackets are open.
structure Progress where
  complete : Bool
  literal : Bool
  angles : Nat
  deriving DecidableEq, Repr

namespace Progress

-- Behind a word or mark after which an expression has to go on.
def start : Progress := ⟨false, false, 0⟩

-- Behind a bracketed group.
def afterGroup (progress : Progress) : Progress := ⟨true, false, progress.angles⟩

-- Behind one more token. A closing angle bracket ends type arguments if some are open, and compares
-- otherwise; an exclamation mark can stand behind an operand or in front of one.
def afterToken (progress : Progress) (token : Token) : Progress :=
  if token.isMark "<" then ⟨false, false, progress.angles + 1⟩
  else if token.isMark ">" then ⟨0 < progress.angles, false, progress.angles - 1⟩
  else if token.isMark "!" then ⟨progress.complete, false, progress.angles⟩
  else
    ⟨token.endsOperand, token.kind == .number || token.kind == .string || token.kind == .regex,
      progress.angles⟩

-- Whether the expression ends in front of a token: at the end of what holds it, or where a line
-- begins that does not continue it.
def endsBefore (progress : Progress) (token : Token) : Bool :=
  progress.complete &&
    (token.kind == .finish || token.isMark "\x7d" || (token.startsLine && !continuesLine token))

-- Whether a literal stands right behind another on the same line.
def collidesWith (progress : Progress) (token : Token) : Bool :=
  progress.literal && !token.startsLine &&
    (token.kind == .number || token.kind == .string || token.kind == .regex)

end Progress

-- What follows an expression statement: its semicolon, or the token that it ends in front of.
def skipExpression (progress : Progress) : Nat → List Token → Option (List Token)
  | 0, _ => none
  | _ + 1, [] => none
  | budget + 1, token :: rest =>
    if token.isMark ";" then some rest
    else if progress.endsBefore token then some (token :: rest)
    else if token.kind == .finish || isClosingMark false token then none
    else if progress.collidesWith token then none
    else
      match closingMark? false token with
      | some closing =>
        (skipOpen false [closing] rest).bind (skipExpression progress.afterGroup budget)
      | none => skipExpression (progress.afterToken token) budget rest

-- What follows the head of a class and its body.
def skipClass : Nat → List Token → Option (List Token)
  | 0, _ => none
  | _ + 1, [] => none
  | budget + 1, token :: rest =>
    if token.isMark "\x7b" then skipGroup false (token :: rest)
    else if token.isMark "<" then (skipGroup true (token :: rest)).bind (skipClass budget)
    else if token.isMark "(" then (skipGroup false (token :: rest)).bind (skipClass budget)
    else if token.kind == .finish then none
    else skipClass budget rest

-- What follows a bracketed group that ends a statement, such as a body or a list of names.
def skipToGroup (mark : Text) : List Token → Option (List Token)
  | [] => none
  | token :: rest =>
    if token.isMark mark then skipGroup false (token :: rest)
    else if token.kind == .finish then none
    else skipToGroup mark rest

-- What follows a function behind the word: a name or none, parameters, a result or none, and a body
-- or the end of the statement.
def skipFunction (tokens : List Token) : Option (List Token) := do
  let tokens := if startsWithMark "*" tokens then tokens.drop 1 else tokens
  let tokens := if startsWithKind .word tokens then tokens.drop 1 else tokens
  let rest ← skipParameters tokens
  let rest ← if startsWithMark ":" rest then
      skipResult (budgetFor rest) .line (rest.drop 1)
    else some rest
  if startsWithMark "\x7b" rest then skipGroup false rest
  else if startsWithMark ";" rest then some (rest.drop 1)
  else if breaksLine rest || startsWithKind .finish rest || startsWithMark "\x7d" rest then some rest
  else none

-- Whether the word at the start of the tokens declares an alias: a name follows on the same line,
-- and behind it type parameters or an equals sign.
def startsAlias (tokens : List Token) : Bool :=
  let rest := tokens.drop 1
  startsWithWord "type" tokens && startsWithKind .word rest && !breaksLine rest &&
    (startsWithMark "=" (rest.drop 1) || startsWithMark "<" (rest.drop 1))

-- Read the value of an alias behind its name.
def parseAliasValue (tokens : List Token) : Option (TypeExpr × List Token) := do
  let rest ← expectMark "=" (← skipAngles tokens)
  parseType (budgetFor rest) .line rest

-- Whether an alias can end in front of these tokens without a semicolon.
def endsAlias (tokens : List Token) : Bool := breaksLine tokens || startsWithKind .finish tokens

-- What follows an alias behind its name.
def skipAlias (tokens : List Token) : Option (List Token) := do
  let (_, rest) ← parseAliasValue tokens
  if startsWithMark ";" rest then some (rest.drop 1)
  else if endsAlias rest then some rest
  else none

-- Words in front of a declaration in a block of its own.
def blockWords : List Text := [
  "namespace", "module", "enum", "global"].map Text.ofString

-- What follows any statement.
def skipStatement : Nat → List Token → Option (List Token)
  | 0, _ => none
  | _ + 1, [] => none
  | budget + 1, token :: rest =>
    let onLine := startsWithKind .word rest && !breaksLine rest
    if token.isMark ";" then some rest
    else if token.isMark "\x7b" then skipGroup false (token :: rest)
    else if token.isMark "@" then
      -- a decorator: a dotted name and arguments
      let name := skipDots (rest.drop 1)
      (if startsWithMark "(" name then skipGroup false name else some name).bind
        (skipStatement budget)
    else if token.isWord "function" then skipFunction rest
    else if token.isWord "async" && startsWithWord "function" rest then skipFunction (rest.drop 1)
    else if token.isWord "class" then skipClass (rest.length + 1) rest
    else if token.isWord "abstract" && startsWithWord "class" rest then
      skipClass (rest.length + 1) rest
    else if token.isWord "interface" && onLine then skipClass (rest.length + 1) rest
    else if startsAlias (token :: rest) then skipAlias (rest.drop 1)
    else if token.isWord "const" && startsWithWord "enum" rest then skipToGroup "\x7b" rest
    else if token.kind == .word && blockWords.contains token.text &&
        (onLine || startsWithKind .string rest || startsWithMark "\x7b" rest) then
      -- an ambient module need not have a body
      if startsWithKind .string rest && !startsWithMark "\x7b" (rest.drop 1) then
        skipExpression (Progress.start.afterToken token) (rest.length + 1) rest
      else skipToGroup "\x7b" rest
    else if token.isWord "declare" && onLine then skipStatement budget rest
    else if token.isWord "if" || token.isWord "while" || token.isWord "for" ||
        token.isWord "with" || token.isWord "switch" then do
      let rest := if startsWithWord "await" rest then rest.drop 1 else rest
      let rest ← skipStatement budget (← skipGroup false rest)
      if startsWithWord "else" rest then skipStatement budget (rest.drop 1) else some rest
    else if token.isWord "do" || token.isWord "try" then do
      skipClauses budget (← skipStatement budget rest)
    else skipPlain token rest
where
  -- What follows a statement that is an expression or ends like one.
  skipPlain (token : Token) (rest : List Token) : Option (List Token) :=
    if startsExpression token then skipExpression .start (rest.length + 2) (token :: rest) else none
  -- What follows the clauses behind the block of `try` or the body of `do`.
  skipClauses : Nat → List Token → Option (List Token)
    | 0, _ => none
    | _ + 1, [] => none
    | budget + 1, token :: rest =>
      if token.isWord "catch" then do
        let rest ← if startsWithMark "(" rest then skipGroup false rest else some rest
        skipClauses budget (← skipGroup false rest)
      else if token.isWord "finally" then skipGroup false rest
      else if token.isWord "while" then do
        let rest ← skipGroup false rest
        return if startsWithMark ";" rest then rest.drop 1 else rest
      else some (token :: rest)

end HookGen.Source
