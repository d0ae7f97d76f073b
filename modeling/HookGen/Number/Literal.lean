import HookGen.Json.Basic
import HookGen.Text.Blank
import HookGen.Text.Digit

/-!
Texts that are numbers as a whole. Digits of every script count, single underscores may stand between
digits, and blanks around the number do not matter.
-/

namespace HookGen.NumberLiteral

-- Blanks that may surround a number: the ASCII separators U+001C to U+001F are not among them.
def isSpace (c : CodePoint) : Bool :=
  c.isBlank && !(0x1C ≤ c.toNat && c.toNat ≤ 0x1F)

-- The text with digits of every script as ASCII ones, without the blanks at its ends.
def normalize (t : Text) : Text :=
  let digit (c : CodePoint) : CodePoint :=
    match c.digitValue? with
    | some n => .char (Nat.digitChar n)
    | none => c
  let ascii := t.map digit
  ((ascii.dropWhile isSpace).reverse.dropWhile isSpace).reverse

def splitSign : Text → Bool × Text
  | .char '-' :: rest => (true, rest)
  | .char '+' :: rest => (false, rest)
  | t => (false, t)

-- Remove underscores, each of which has to stand between two digits; `before` tells whether a digit
-- stands in front of the text.
def dropUnderscores (before : Bool) : Text → Option Text
  | [] => some []
  | .char '_' :: rest =>
    if before && rest.head?.any CodePoint.isAsciiDigit then dropUnderscores false rest else none
  | c :: rest => (dropUnderscores c.isAsciiDigit rest).map (c :: ·)

def digitsValue (digits : Text) : Nat :=
  digits.foldl (fun n c => n * 10 + (c.toNat - '0'.toNat)) 0

-- The whole number that a text is. More than 4300 digits are not read.
def int? (t : Text) : Option Int := do
  let (negative, unsigned) := splitSign (normalize t)
  let digits ← dropUnderscores false unsigned
  if digits.isEmpty || !digits.all CodePoint.isAsciiDigit || digits.length > 4300 then none
  else
    let magnitude : Int := digitsValue digits
    return if negative then -magnitude else magnitude

def asciiLower (t : Text) : Text :=
  t.map fun c =>
    match c with
    | .char c => .char c.toLower
    | .surrogate offset => .surrogate offset

-- The exponent of a number: nothing, or the letter, a sign or none, and digits.
def exponent? : Text → Option Int
  | [] => some 0
  | c :: rest =>
    if c = 'e' ∨ c = 'E' then
      let (negative, digits) := splitSign rest
      if digits.isEmpty || !digits.all CodePoint.isAsciiDigit then none
      else
        let magnitude : Int := digitsValue digits
        some (if negative then -magnitude else magnitude)
    else
      none

-- The decimal that an unsigned text is: digits, a point or none, digits, and an exponent.
def decimal? (negative : Bool) (t : Text) : Option Binary64 := do
  let whole := t.takeWhile CodePoint.isAsciiDigit
  let afterWhole := t.drop whole.length
  let (fraction, afterFraction) : Text × Text := match afterWhole with
    | .char '.' :: rest =>
      let fraction := rest.takeWhile CodePoint.isAsciiDigit
      (fraction, rest.drop fraction.length)
    | _ => ([], afterWhole)
  let e ← exponent? afterFraction
  if whole.isEmpty && fraction.isEmpty then none
  else return Binary64.ofDecimal negative (digitsValue (whole ++ fraction)) (e - fraction.length)

-- The double-precision number that a text is.
def float? (t : Text) : Option Binary64 := do
  let (negative, unsigned) := splitSign (normalize t)
  let word := asciiLower unsigned
  if word = "inf" ∨ word = "infinity" then return Binary64.infinity negative
  if word = "nan" then return Binary64.nan
  decimal? negative (← dropUnderscores false unsigned)

-- The number that a text is, whole if possible, or else the text.
def value (t : Text) : Json :=
  match int? t with
  | some n => .int n
  | none =>
    match float? t with
    | some x => .float x
    | none => .str t

end HookGen.NumberLiteral
