import HookGen.Text.Basic

/-!
The value of a quoted string literal of a declaration: escapes are decoded, and a high surrogate
directly followed by a low one becomes the code point of the pair.
-/

namespace HookGen.StringLiteral

-- Why a literal has no value: an escape names a number that no code point has. From 2^31 on the
-- number does not even fit a machine word.
inductive DecodeError
  | notACodePoint
  | tooLarge
  deriving DecidableEq, Repr

def DecodeError.message : DecodeError → Text
  | .notACodePoint => "chr() arg not in range(0x110000)"
  | .tooLarge => "Python int too large to convert to C int"

-- Whether a text has the same quote at both of its ends.
def isQuoted (t : Text) : Bool :=
  t.length ≥ 2 && t.head? == t.getLast? && t.head?.any (CodePoint.isIn ['"', '\''])

-- The text between the first and the last character.
def inner (t : Text) : Text := (t.drop 1).dropLast

def hexNumber (digits : Text) : Nat :=
  digits.foldl (fun n c => n * 16 + c.hexValue?.getD 0) 0

-- The number of an escape with exactly `width` hexadecimal digits, which begin the text.
def fixedHex? (width : Nat) (t : Text) : Option Nat :=
  let digits := t.take width
  if digits.length = width ∧ digits.all CodePoint.isHexDigit then some (hexNumber digits) else none

-- The number of an escape in braces, of which the opening one is read, and how many code points the
-- digits and the closing brace have.
def bracedHex? (t : Text) : Option (Nat × Nat) :=
  let digits := t.takeWhile CodePoint.isHexDigit
  if digits.isEmpty ∨ (t.drop digits.length).head? ≠ some (.char '\x7d') then none
  else some (hexNumber digits, digits.length + 1)

-- What follows a backslash as one escape.
inductive Escape
  | numeric (n : Nat)
  | lineContinuation
  | character (c : CodePoint)
  deriving DecidableEq, Repr

-- The character that a letter stands for behind a backslash; any other stands for itself.
def simpleEscape (c : CodePoint) : CodePoint :=
  if c = 'n' then '\n'
  else if c = 't' then '\t'
  else if c = 'r' then '\r'
  else if c = 'b' then .char (Char.ofNat 8)
  else if c = 'f' then .char (Char.ofNat 12)
  else if c = 'v' then .char (Char.ofNat 11)
  else if c = '0' then .char (Char.ofNat 0)
  else c

def isLineTerminator (c : CodePoint) : Bool :=
  c = '\n' || c = '\r' || c.toNat = 0x2028 || c.toNat = 0x2029

-- The escape whose first character behind the backslash is `c`, and how many of the code points
-- that follow `c` belong to it.
def readEscape (c : CodePoint) (rest : Text) : Escape × Nat :=
  if c = 'u' then
    match rest with
    | .char '\x7b' :: digits =>
      match bracedHex? digits with
      | some (n, used) => (.numeric n, used + 1)
      | none => (.character c, 0)
    | _ =>
      match fixedHex? 4 rest with
      | some n => (.numeric n, 4)
      | none => (.character c, 0)
  else if c = 'x' then
    match fixedHex? 2 rest with
    | some n => (.numeric n, 2)
    | none => (.character c, 0)
  else if c = '\r' ∧ rest.head? = some (.char '\n') then (.lineContinuation, 1)
  else if isLineTerminator c then (.lineContinuation, 0)
  else (.character (simpleEscape c), 0)

def Escape.value : Escape → Except DecodeError Text
  | .numeric n =>
    match CodePoint.ofNat? n with
    | some c => .ok [c]
    | none => .error (if n < 0x80000000 then .notACodePoint else .tooLarge)
  | .lineContinuation => .ok []
  | .character c => .ok [c]

-- Decode every escape. A backslash at the end of the text stands for itself.
def decodeEscapes : Text → Except DecodeError Text
  | [] => .ok []
  | .char '\\' :: c :: rest => do
    let escape := readEscape c rest
    let value ← escape.1.value
    let t ← decodeEscapes (rest.drop escape.2)
    return value ++ t
  | c :: rest => do
    let t ← decodeEscapes rest
    return c :: t
termination_by t => t.length
decreasing_by all_goals simp only [List.length_drop, List.length_cons]; omega

-- The code point of a high and a low surrogate, given by their offsets.
def pairValue (high low : Fin 2048) : CodePoint :=
  .char (Char.ofNat (0x10000 + high.val * 1024 + (low.val - 1024)))

-- Join each high surrogate with a low one that directly follows.
def joinPairs : Text → Text
  | .surrogate high :: .surrogate low :: rest =>
    if high.val < 1024 ∧ 1024 ≤ low.val then
      pairValue high low :: joinPairs rest
    else
      .surrogate high :: joinPairs (.surrogate low :: rest)
  | c :: rest => c :: joinPairs rest
  | [] => []

-- The value of a literal; a text without quotes is taken for the inside of one.
def decode (t : Text) : Except DecodeError Text :=
  (decodeEscapes (if isQuoted t then inner t else t)).map joinPairs

end HookGen.StringLiteral
