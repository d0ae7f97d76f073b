import HookGen.Json.Basic

/-!
Reading JSON. Beyond the standard, the words NaN, Infinity and -Infinity are numbers, and of several fields with
one name the last one counts. Whole numbers of more than 4300 digits are refused.
-/

namespace HookGen.Json

-- What is wrong at a place of a text that is no JSON.
inductive Fault
  | expectedValue
  | expectedName
  | expectedColon
  | expectedComma
  | unterminatedString
  | controlCharacter
  | unknownEscape
  | malformedUnicodeEscape
  | trailingData
  | byteOrderMark
  deriving DecidableEq, Repr

def Fault.message : Fault → Text
  | .expectedValue => "Expecting value"
  | .expectedName => "Expecting property name enclosed in double quotes"
  | .expectedColon => "Expecting ':' delimiter"
  | .expectedComma => "Expecting ',' delimiter"
  | .unterminatedString => "Unterminated string starting at"
  | .controlCharacter => "Invalid control character at"
  | .unknownEscape => "Invalid \\escape"
  | .malformedUnicodeEscape => "Invalid \\uXXXX escape"
  | .trailingData => "Extra data"
  | .byteOrderMark => "Unexpected UTF-8 BOM (decode using utf-8-sig)"

-- Why reading stopped. While reading, a place is the number of code points from it to the end.
inductive Stop
  | fault (fault : Fault) (remaining : Nat)
  | tooManyDigits (count : Nat)
  deriving DecidableEq, Repr

inductive ReadError
  | fault (fault : Fault) (line column position : Nat)
  | tooManyDigits (count : Nat)
  deriving DecidableEq, Repr

def tooManyDigitsMessage (count : Nat) : Text :=
  "Exceeds the limit (4300 digits) for integer string conversion: value has " ++ Text.ofNat count ++
    " digits; use sys.set_int_max_str_digits() to increase the limit"

def ReadError.message : ReadError → Text
  | .fault cause line column position =>
    cause.message ++ ": line " ++ Text.ofNat line ++ " column " ++ Text.ofNat column ++
      " (char " ++ Text.ofNat position ++ ")"
  | .tooManyDigits count => tooManyDigitsMessage count

-- The line and the column of a position, both from 1 on.
def lineAndColumn (t : Text) (position : Nat) : Nat × Nat :=
  let before := t.take position
  (before.count (.char '\n') + 1, (before.reverse.takeWhile (· != .char '\n')).length + 1)

def ReadError.ofStop (t : Text) : Stop → ReadError
  | .tooManyDigits count => .tooManyDigits count
  | .fault cause remaining =>
    let position := t.length - remaining
    let (line, column) := lineAndColumn t position
    .fault cause line column position

def stopAt (fault : Fault) (rest : Text) {α : Type} : Except Stop α :=
  .error (.fault fault rest.length)

def isSpace (c : CodePoint) : Bool := c.isIn [' ', '\t', '\n', '\r']

def skipSpace (t : Text) : Text := t.dropWhile isSpace

-- Four hexadecimal digits that do not end the text, and what follows them.
def readHex4 : Text → Option (Nat × Text)
  | a :: b :: c :: d :: next :: rest => do
    let a ← a.hexValue?
    let b ← b.hexValue?
    let c ← c.hexValue?
    let d ← d.hexValue?
    return (((a * 16 + b) * 16 + c) * 16 + d, next :: rest)
  | _ => none

-- The character that a backslash and the given character stand for.
def simpleEscape? : CodePoint → Option CodePoint
  | .char '"' => some '"'
  | .char '\\' => some '\\'
  | .char '/' => some '/'
  | .char 'b' => some (.char (Char.ofNat 8))
  | .char 'f' => some (.char (Char.ofNat 12))
  | .char 'n' => some '\n'
  | .char 'r' => some '\r'
  | .char 't' => some '\t'
  | _ => none

-- The code point of a high and a low surrogate.
def joinSurrogates? (high low : Nat) : Option CodePoint :=
  if 0xD800 ≤ high ∧ high < 0xDC00 ∧ 0xDC00 ≤ low ∧ low < 0xE000 then
    some (.char (Char.ofNat (0x10000 + (high - 0xD800) * 1024 + (low - 0xDC00))))
  else
    none

-- The unit of a Unicode escape at the start of a text.
def leadingUnit? : Text → Option Nat
  | .char '\\' :: .char 'u' :: rest => (readHex4 rest).map (·.1)
  | _ => none

-- Read the rest of a string up to its closing quote. `opening` is the place of the opening quote.
def readString (opening : Nat) : Text → Except Stop (Text × Text)
  | [] => .error (.fault .unterminatedString opening)
  | .char '"' :: rest => .ok ([], rest)
  | .char '\\' :: [] => .error (.fault .unterminatedString opening)
  | .char '\\' :: .char 'u' :: rest =>
    match readHex4 rest with
    | none => stopAt .malformedUnicodeEscape (.char 'u' :: rest)
    | some (unit, _) => do
      -- a high surrogate whose low half follows in a second escape is one code point with it
      match (leadingUnit? (rest.drop 4)).bind (joinSurrogates? unit) with
      | some c =>
        let (t, after) ← readString opening (rest.drop 10)
        return (c :: t, after)
      | none =>
        let (t, after) ← readString opening (rest.drop 4)
        return ((CodePoint.ofNat? unit).toList ++ t, after)
  | .char '\\' :: c :: rest =>
    match simpleEscape? c with
    | none => stopAt .unknownEscape (.char '\\' :: c :: rest)
    | some c => do
      let (t, after) ← readString opening rest
      return (c :: t, after)
  | c :: rest =>
    if c.toNat < 0x20 then
      stopAt .controlCharacter (c :: rest)
    else do
      let (t, after) ← readString opening rest
      return (c :: t, after)
termination_by t => t.length
decreasing_by all_goals simp only [List.length_drop, List.length_cons]; omega

def digitsValue (digits : Text) : Nat :=
  digits.foldl (fun n c => n * 10 + (c.toNat - '0'.toNat)) 0

-- The fraction of a number: a point and at least one digit.
def readFraction : Text → Text × Text
  | .char '.' :: rest =>
    let digits := rest.takeWhile CodePoint.isAsciiDigit
    if digits.isEmpty then ([], .char '.' :: rest) else (digits, rest.drop digits.length)
  | t => ([], t)

-- The exponent of a number: the letter, a sign or none, and at least one digit.
def readExponent : Text → Option Int × Text
  | [] => (none, [])
  | c :: rest =>
    if c = 'e' ∨ c = 'E' then
      let (negative, unsigned) := match rest with
        | .char '-' :: unsigned => (true, unsigned)
        | .char '+' :: unsigned => (false, unsigned)
        | _ => (false, rest)
      let digits := unsigned.takeWhile CodePoint.isAsciiDigit
      if digits.isEmpty then (none, c :: rest)
      else
        let magnitude : Int := digitsValue digits
        (some (if negative then -magnitude else magnitude), unsigned.drop digits.length)
    else
      (none, c :: rest)

-- Read a number without its sign.
def readMagnitude (negative : Bool) (start : Nat) (t : Text) : Except Stop (Json × Text) :=
  let digits : Text := match t with
    | .char '0' :: _ => "0"
    | _ => t.takeWhile CodePoint.isAsciiDigit
  if digits.isEmpty then .error (.fault .expectedValue start)
  else
    let (fraction, afterFraction) := readFraction (t.drop digits.length)
    let (exponent, rest) := readExponent afterFraction
    if fraction.isEmpty ∧ exponent.isNone then
      if digits.length > 4300 then .error (.tooManyDigits digits.length)
      else
        let magnitude : Int := digitsValue digits
        .ok (.int (if negative then -magnitude else magnitude), rest)
    else
      let e : Int := exponent.getD 0 - fraction.length
      .ok (.float (Binary64.ofDecimal negative (digitsValue (digits ++ fraction)) e), rest)

-- Words that stand for values.
def wordValues : List (Text × Json) := [
  ("null", .null),
  ("true", .bool true),
  ("false", .bool false),
  ("NaN", .float Binary64.nan),
  ("Infinity", .float (Binary64.infinity false)),
  ("-Infinity", .float (Binary64.infinity true))]

def readScalar (t : Text) : Except Stop (Json × Text) :=
  match wordValues.find? fun word => word.1.isPrefixOf t with
  | some (word, value) => .ok (value, t.drop word.length)
  | none =>
    match t with
    | .char '-' :: rest => readMagnitude true t.length rest
    | _ => readMagnitude false t.length t

mutual

-- Read a value at the start of a text. The budget bounds the depth of the calls; twice the length of
-- the text and two more are enough.
def readValue : Nat → Text → Except Stop (Json × Text)
  | 0, t => stopAt .expectedValue t
  | budget + 1, t =>
    match t with
    | .char '"' :: rest => do
      let (value, after) ← readString t.length rest
      return (.str value, after)
    | .char '[' :: rest =>
      match skipSpace rest with
      | .char ']' :: after => .ok (.arr [], after)
      | first => do
        let (elements, after) ← readElements budget first
        return (.arr elements, after)
    | .char '\x7b' :: rest =>
      match skipSpace rest with
      | .char '\x7d' :: after => .ok (.obj [], after)
      | first => do
        let (fields, after) ← readFields budget [] first
        return (.obj fields, after)
    | _ => readScalar t

-- Read the elements of a list up to its closing bracket.
def readElements : Nat → Text → Except Stop (List Json × Text)
  | 0, t => stopAt .expectedValue t
  | budget + 1, t => do
    let (element, after) ← readValue budget t
    match skipSpace after with
    | .char ']' :: rest => return ([element], rest)
    | .char ',' :: rest =>
      let (elements, after) ← readElements budget (skipSpace rest)
      return (element :: elements, after)
    | rest => stopAt .expectedComma rest

-- Read the fields of an object up to its closing brace, behind those read so far.
def readFields : Nat → List (Text × Json) → Text → Except Stop (List (Text × Json) × Text)
  | 0, _, t => stopAt .expectedName t
  | budget + 1, fields, t =>
    match t with
    | .char '"' :: rest => do
      let (name, after) ← readString t.length rest
      match skipSpace after with
      | .char ':' :: rest =>
        let (value, after) ← readValue budget (skipSpace rest)
        let fields := setField name value fields
        match skipSpace after with
        | .char '\x7d' :: rest => return (fields, rest)
        | .char ',' :: rest => readFields budget fields (skipSpace rest)
        | rest => stopAt .expectedComma rest
      | rest => stopAt .expectedColon rest
    | _ => stopAt .expectedName t

end

-- Read a text that is one value with space around it.
def readAll (t : Text) : Except Stop Json :=
  if (t.head?.map CodePoint.toNat) = some 0xFEFF then stopAt .byteOrderMark t
  else do
    let (value, after) ← readValue (2 * t.length + 2) (skipSpace t)
    match skipSpace after with
    | [] => return value
    | rest => stopAt .trailingData rest

def read (t : Text) : Except ReadError Json :=
  match readAll t with
  | .ok value => .ok value
  | .error stop => .error (.ofStop t stop)

end HookGen.Json
