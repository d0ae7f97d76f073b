/-!
Texts as lists of code points. A code point is a Unicode scalar value or a surrogate that stands
alone: escapes in string literals can produce the latter, and then it must survive until a text is
encoded.
-/

namespace HookGen

-- One position of a text. The second constructor holds the 2048 code points from U+D800 on that
-- are no scalar values.
inductive CodePoint
  | char (c : Char)
  | surrogate (offset : Fin 2048)
  deriving DecidableEq, Repr

abbrev Text := List CodePoint

namespace CodePoint

def toNat : CodePoint → Nat
  | .char c => c.toNat
  | .surrogate offset => 0xD800 + offset.val

-- The code point of a number, if there is one: numbers from 0x110000 on name none.
def ofNat? (n : Nat) : Option CodePoint :=
  if h : 0xD800 ≤ n ∧ n < 0xE000 then
    some (.surrogate ⟨n - 0xD800, by omega⟩)
  else if n < 0x110000 then
    some (.char (Char.ofNat n))
  else
    none

-- Whether the code point is one of the characters of a set.
def isIn (set : List Char) : CodePoint → Bool
  | .char c => set.contains c
  | .surrogate _ => false

def isAsciiDigit : CodePoint → Bool
  | .char c => '0' ≤ c && c ≤ '9'
  | .surrogate _ => false

def isAsciiLetter : CodePoint → Bool
  | .char c => ('a' ≤ c && c ≤ 'z') || ('A' ≤ c && c ≤ 'Z')
  | .surrogate _ => false

-- The value of a hexadecimal digit in either case.
def hexValue? : CodePoint → Option Nat
  | .char c =>
    if '0' ≤ c ∧ c ≤ '9' then some (c.toNat - '0'.toNat)
    else if 'a' ≤ c ∧ c ≤ 'f' then some (c.toNat - 'a'.toNat + 10)
    else if 'A' ≤ c ∧ c ≤ 'F' then some (c.toNat - 'A'.toNat + 10)
    else none
  | .surrogate _ => none

def isHexDigit (c : CodePoint) : Bool := c.hexValue?.isSome

end CodePoint

namespace Text

def ofChars (chars : List Char) : Text := chars.map .char

def ofString (s : String) : Text := ofChars s.toList

-- A literal by its characters. To evaluate this is much faster than to take the literal apart.
theorem ofString_ofList (chars : List Char) : ofString (String.ofList chars) = ofChars chars :=
  congrArg ofChars String.toList_ofList

instance : Coe String Text := ⟨ofString⟩

instance : Coe Char CodePoint := ⟨.char⟩

def zeros (n : Nat) : Text := List.replicate n '0'

-- The number in decimal digits.
def ofNat (n : Nat) : Text := ofChars (Nat.toDigits 10 n)

def ofInt : Int → Text
  | .ofNat n => ofNat n
  | .negSucc n => .char '-' :: ofNat (n + 1)

-- The number in lower-case hexadecimal digits, with zeros in front up to the given width.
def ofNatHex (width n : Nat) : Text :=
  let digits := ofChars (Nat.toDigits 16 n)
  zeros (width - digits.length) ++ digits

def startsWith (start t : Text) : Bool := start.isPrefixOf t

def endsWith (ending t : Text) : Bool := ending.isSuffixOf t

-- Whether `needle` occurs in a text as a run of neighbouring code points.
def includes (needle : Text) : Text → Bool
  | [] => needle.isEmpty
  | c :: rest => needle.isPrefixOf (c :: rest) || includes needle rest

-- The text with the first occurrence of `needle`, if it has one, replaced.
def replaceFirst (needle replacement : Text) : Text → Text
  | [] => if needle.isEmpty then replacement else []
  | c :: rest =>
    if needle.isPrefixOf (c :: rest) then
      replacement ++ (c :: rest).drop needle.length
    else
      c :: replaceFirst needle replacement rest

-- The pieces of a text between the occurrences of one code point: always one more than those.
def splitOn (separator : CodePoint) : Text → List Text
  | [] => [[]]
  | c :: rest =>
    if c = separator then
      [] :: splitOn separator rest
    else
      match splitOn separator rest with
      | [] => [[c]]
      | piece :: pieces => (c :: piece) :: pieces

-- The pieces of a text between line feeds.
def lines (t : Text) : List Text := t.splitOn '\n'

def join (separator : Text) (pieces : List Text) : Text := separator.intercalate pieces

def joinLines (pieces : List Text) : Text := join "\n" pieces

def spaces (n : Nat) : Text := List.replicate n ' '

-- Texts are ordered by their code points, and a text comes before its extensions.
def le : Text → Text → Bool
  | [], _ => true
  | _ :: _, [] => false
  | a :: s, b :: t => a.toNat < b.toNat || (a.toNat == b.toNat && le s t)

-- Put a text into a list that is in order.
def insertSorted (t : Text) : List Text → List Text
  | [] => [t]
  | first :: rest => if le t first then t :: first :: rest else first :: insertSorted t rest

def sort : List Text → List Text
  | [] => []
  | t :: rest => insertSorted t (sort rest)

-- A list of texts without repetition, in order.
def sortDistinct (ts : List Text) : List Text := sort ts.eraseDups

end Text

end HookGen
