import HookGen.Text.Basic

/-!
UTF-8. Encoding refuses surrogates. Decoding is strict, with the position and the cause of the first
fault, or lossy: then the longest start of a code point that cannot go on becomes U+FFFD.
-/

namespace HookGen

abbrev Bytes := List UInt8

namespace Utf8

-- Why bytes are not the UTF-8 form of a text.
inductive Fault
  | invalidStart
  | invalidContinuation
  | unexpectedEnd
  deriving DecidableEq, Repr

def Fault.message : Fault → Text
  | .invalidStart => "invalid start byte"
  | .invalidContinuation => "invalid continuation byte"
  | .unexpectedEnd => "unexpected end of data"

-- Read `count` further bytes of a code point whose leading bits are in `value`. The first of them
-- lies between `low` and `high`, the others between 0x80 and 0xBF. The answer has the number of
-- bytes that are part of the code point, or of the start of one that a fault cuts off.
def readTail : Nat → Nat → Nat → Nat → Bytes → Except Fault Nat × Nat
  | 0, _, _, value, _ => (.ok value, 0)
  | _ + 1, _, _, _, [] => (.error .unexpectedEnd, 0)
  | count + 1, low, high, value, b :: rest =>
    if low ≤ b.toNat ∧ b.toNat ≤ high then
      let (result, used) := readTail count 0x80 0xBF (value * 64 + (b.toNat - 0x80)) rest
      (result, used + 1)
    else
      (.error .invalidContinuation, 0)

-- Read the code point that begins with byte `b`; the number counts the further bytes it takes.
def readFirst (b : UInt8) (rest : Bytes) : Except Fault Nat × Nat :=
  let n := b.toNat
  if n < 0x80 then (.ok n, 0)
  else if n < 0xC2 then (.error .invalidStart, 0)
  else if n < 0xE0 then readTail 1 0x80 0xBF (n - 0xC0) rest
  else if n = 0xE0 then readTail 2 0xA0 0xBF 0 rest
  else if n = 0xED then readTail 2 0x80 0x9F 0xD rest
  else if n < 0xF0 then readTail 2 0x80 0xBF (n - 0xE0) rest
  else if n = 0xF0 then readTail 3 0x90 0xBF 0 rest
  else if n < 0xF4 then readTail 3 0x80 0xBF (n - 0xF0) rest
  else if n = 0xF4 then readTail 3 0x80 0x8F 4 rest
  else (.error .invalidStart, 0)

def replacementCharacter : CodePoint := .char (Char.ofNat 0xFFFD)

def decodeLossy : Bytes → Text
  | [] => []
  | b :: rest =>
    let read := readFirst b rest
    let c := match read.1 with
      | .ok n => .char (Char.ofNat n)
      | .error _ => replacementCharacter
    c :: decodeLossy (rest.drop read.2)
termination_by bytes => bytes.length
decreasing_by simp only [List.length_drop, List.length_cons]; omega

-- The first fault of a byte sequence: its cause, the byte it begins with, the position of that byte
-- and the number of bytes it covers.
structure DecodeError where
  fault : Fault
  byte : UInt8
  position : Nat
  size : Nat
  deriving DecidableEq, Repr

def DecodeError.message (e : DecodeError) : Text :=
  if e.size = 1 then
    "'utf-8' codec can't decode byte 0x" ++ Text.ofNatHex 2 e.byte.toNat ++ " in position " ++
      Text.ofNat e.position ++ ": " ++ e.fault.message
  else
    "'utf-8' codec can't decode bytes in position " ++ Text.ofNat e.position ++ "-" ++
      Text.ofNat (e.position + e.size - 1) ++ ": " ++ e.fault.message

-- Decode bytes of which the first stands at `position`.
def decodeFrom (position : Nat) : Bytes → Except DecodeError Text
  | [] => .ok []
  | b :: rest =>
    let read := readFirst b rest
    match read.1 with
    | .error fault => .error ⟨fault, b, position, read.2 + 1⟩
    | .ok n => do
      let t ← decodeFrom (position + read.2 + 1) (rest.drop read.2)
      return .char (Char.ofNat n) :: t
termination_by bytes => bytes.length
decreasing_by simp only [List.length_drop, List.length_cons]; omega

def decode (bytes : Bytes) : Except DecodeError Text := decodeFrom 0 bytes

-- The bytes of a scalar value.
def encodeNat (n : Nat) : Bytes :=
  if n < 0x80 then
    [n.toUInt8]
  else if n < 0x800 then
    [(0xC0 + n / 64).toUInt8, (0x80 + n % 64).toUInt8]
  else if n < 0x10000 then
    [(0xE0 + n / 4096).toUInt8, (0x80 + n / 64 % 64).toUInt8, (0x80 + n % 64).toUInt8]
  else
    [(0xF0 + n / 262144).toUInt8, (0x80 + n / 4096 % 64).toUInt8, (0x80 + n / 64 % 64).toUInt8,
      (0x80 + n % 64).toUInt8]

-- The first run of surrogates of a text that cannot be encoded: its first surrogate, the position of
-- that and the length of the run.
structure EncodeError where
  surrogate : Nat
  position : Nat
  size : Nat
  deriving DecidableEq, Repr

def EncodeError.message (e : EncodeError) : Text :=
  if e.size = 1 then
    "'utf-8' codec can't encode character '\\u" ++ Text.ofNatHex 4 e.surrogate ++ "' in position " ++
      Text.ofNat e.position ++ ": surrogates not allowed"
  else
    "'utf-8' codec can't encode characters in position " ++ Text.ofNat e.position ++ "-" ++
      Text.ofNat (e.position + e.size - 1) ++ ": surrogates not allowed"

def isSurrogate : CodePoint → Bool
  | .char _ => false
  | .surrogate _ => true

-- Encode a text of which the first code point stands at `position`.
def encodeFrom (position : Nat) : Text → Except EncodeError Bytes
  | [] => .ok []
  | .char c :: rest => do
    let bytes ← encodeFrom (position + 1) rest
    return encodeNat c.toNat ++ bytes
  | .surrogate offset :: rest =>
    .error ⟨0xD800 + offset.val, position, (rest.takeWhile isSurrogate).length + 1⟩

def encode (t : Text) : Except EncodeError Bytes := encodeFrom 0 t

end Utf8

end HookGen
