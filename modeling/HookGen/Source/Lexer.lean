import HookGen.Source.Token

/-!
Cutting a source into tokens. Each lexeme is the longest one that begins where the previous one ends,
so the lexemes of a source are the source again when they are joined. Every `>` is a token of its
own, because type arguments can end side by side.
-/

namespace HookGen.Source

-- The spaces of declaration sources. A byte-order mark counts as one.
def isSpace (c : CodePoint) : Bool :=
  let n := c.toNat
  (0x09 ≤ n && n ≤ 0x0D) || n == 0x20 || n == 0xA0 || n == 0x1680 || (0x2000 ≤ n && n ≤ 0x200B) ||
    n == 0x2028 || n == 0x2029 || n == 0x202F || n == 0x205F || n == 0x2060 || n == 0x3000 ||
    n == 0xFEFF

def endsLine (c : CodePoint) : Bool :=
  c = '\n' || c = '\r' || c.toNat = 0x2028 || c.toNat = 0x2029

-- The ASCII characters that are marks or begin other lexemes.
def isPunctuation (c : CodePoint) : Bool :=
  c.isIn [':', ';', '\x60', '"', '\'', '@', '#', '.', ',', '|', '^', '&', '<', '=', '>', '+', '-', '*',
    '/', '\\', '%', '?', '!', '~', '(', ')', '[', ']', '\x7b', '\x7d']

-- Words are made of everything that is neither space nor control nor punctuation, and do not begin
-- with a digit.
def isWordPart (c : CodePoint) : Bool := 0x20 < c.toNat && !isSpace c && !isPunctuation c

def isWordStart (c : CodePoint) : Bool := isWordPart c && !c.isAsciiDigit

-- How many of the first code points of a text belong to a word that has begun. A Unicode escape
-- is part of a word; `braced` tells whether one with braces is open.
def wordLength (braced : Bool) : Text → Nat
  | [] => 0
  | c :: rest =>
    if braced then wordLength (c != .char '\x7d') rest + 1
    else if isWordPart c then wordLength false rest + 1
    else if c = '\\' then
      match rest with
      | .char 'u' :: .char '\x7b' :: rest => wordLength true rest + 3
      | .char 'u' :: rest => wordLength false rest + 2
      | _ => 0
    else 0

-- How many of the first code points of a text belong to a number that has begun. A sign belongs to it
-- behind the letter of an exponent.
def numberLength (afterLetter : Bool) : Text → Nat
  | [] => 0
  | c :: rest =>
    if isWordPart c || c = '.' || (afterLetter && c.isIn ['+', '-']) then
      numberLength (c.isIn ['e', 'E']) rest + 1
    else 0

-- How many of the first code points of a text belong to a number with a base of its own.
def basedNumberLength (t : Text) : Nat := (t.takeWhile isWordPart).length

-- Where a scan of a literal stands: in a string with the given quote, in the text of a template, or
-- in an expression of a template with that many braces open.
inductive Mode
  | quoted (quote : CodePoint)
  | template
  | expression (depth : Nat)
  deriving DecidableEq, Repr

-- How many of the first code points of a text belong to a literal in which the given modes are open,
-- the innermost first. Without an end the literal takes everything.
def literalLength : List Mode → Text → Nat
  | [], _ => 0
  | _, [] => 0
  | .quoted quote :: outer, c :: rest =>
    if c = '\\' then
      match rest with
      | _ :: rest => literalLength (.quoted quote :: outer) rest + 2
      | [] => 1
    else if c = quote then literalLength outer rest + 1
    else literalLength (.quoted quote :: outer) rest + 1
  | .template :: outer, c :: rest =>
    if c = '\\' then
      match rest with
      | _ :: rest => literalLength (.template :: outer) rest + 2
      | [] => 1
    else if c = '\x60' then literalLength outer rest + 1
    else if c = '$' then
      match rest with
      | .char '\x7b' :: rest => literalLength (.expression 0 :: .template :: outer) rest + 2
      | rest => literalLength (.template :: outer) rest + 1
    else literalLength (.template :: outer) rest + 1
  | .expression depth :: outer, c :: rest =>
    if c = '\x7b' then literalLength (.expression (depth + 1) :: outer) rest + 1
    else if c = '\x7d' then
      if depth = 0 then literalLength outer rest + 1
      else literalLength (.expression (depth - 1) :: outer) rest + 1
    else if c = '\x60' then literalLength (.template :: .expression depth :: outer) rest + 1
    else if c = '"' ∨ c = '\'' then
      literalLength (.quoted c :: .expression depth :: outer) rest + 1
    else literalLength (.expression depth :: outer) rest + 1

-- How many of the first code points of a text belong to a block comment that has begun.
def blockCommentLength : Text → Nat
  | [] => 0
  | .char '*' :: .char '/' :: _ => 2
  | _ :: rest => blockCommentLength rest + 1

-- How many of the first code points of a text belong to a regular expression that has begun;
-- `inClass` tells whether a bracket is open.
def regexLength (inClass : Bool) : Text → Nat
  | [] => 0
  | c :: rest =>
    if c = '\\' then
      match rest with
      | _ :: rest => regexLength inClass rest + 2
      | [] => 1
    else if endsLine c then 0
    else if c = '[' then regexLength true rest + 1
    else if c = ']' then regexLength false rest + 1
    else if c = '/' ∧ !inClass then (rest.takeWhile isWordPart).length + 1
    else regexLength inClass rest + 1

inductive Lexeme
  | blank
  | comment
  | token (kind : Kind)
  deriving DecidableEq, Repr

-- The lexeme that begins with `c`, and how many of the code points behind `c` belong to it. Whether
-- a slash begins a regular expression depends on what stands before it.
def lexeme (regexAllowed : Bool) (c : CodePoint) (rest : Text) : Lexeme × Nat :=
  if isSpace c then (.blank, (rest.takeWhile isSpace).length)
  else if c = '/' then
    match rest with
    | .char '/' :: _ => (.comment, (rest.takeWhile (!endsLine ·)).length)
    | .char '*' :: rest => (.comment, blockCommentLength rest + 1)
    | _ => if regexAllowed then (.token .regex, regexLength false rest) else (.token .mark, 0)
  else if c = '"' ∨ c = '\'' then (.token .string, literalLength [.quoted c] rest)
  else if c = '\x60' then (.token .template, literalLength [.template] rest)
  else if c = '0' ∧ rest.head?.any (CodePoint.isIn ['x', 'X', 'o', 'O', 'b', 'B']) then
    (.token .number, basedNumberLength rest)
  else if c.isAsciiDigit ∨ (c = '.' ∧ rest.head?.any CodePoint.isAsciiDigit) then
    (.token .number, numberLength false rest)
  else if isWordStart c then (.token .word, wordLength false rest)
  else if c = '\\' ∨ (c = '#' ∧ rest.head?.any isWordStart) then
    (.token .word, wordLength false rest)
  else if c = '=' ∧ rest.head? = some (.char '>') then (.token .mark, 1)
  else if (c = '+' ∨ c = '-') ∧ rest.head? = some c then (.token .mark, 1)
  else if c = '.' ∧ Text.startsWith ".." rest then (.token .mark, 2)
  else (.token .mark, 0)

-- The tokens of a source, with `lead` in front of the first. `operand` tells whether the token
-- before can end an expression.
def tokensFrom (lead : List Trivia) (operand : Bool) : Text → List Token
  | [] => [⟨lead, .finish, []⟩]
  | c :: rest =>
    let read := lexeme (!operand) c rest
    let text := c :: rest.take read.2
    match read.1 with
    | .blank => tokensFrom (lead ++ [.blank text]) operand (rest.drop read.2)
    | .comment => tokensFrom (lead ++ [.comment text]) operand (rest.drop read.2)
    | .token kind =>
      let token : Token := ⟨lead, kind, text⟩
      token :: tokensFrom [] token.endsOperand (rest.drop read.2)
termination_by t => t.length
decreasing_by all_goals simp only [List.length_drop, List.length_cons]; omega

-- The tokens of a source. A line that names an interpreter can come first.
def tokens (source : Text) : List Token :=
  let blank := source.takeWhile isSpace
  let rest := source.drop blank.length
  if Text.startsWith "#!" rest then
    let line := rest.takeWhile (· != .char '\n')
    tokensFrom [.blank blank, .comment line] false (rest.drop line.length)
  else
    tokensFrom [] false source

end HookGen.Source
