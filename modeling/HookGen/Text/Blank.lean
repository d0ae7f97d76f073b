import HookGen.Text.Basic

/-!
Blank characters, and trimming and splitting a text at them. The separators U+001C to U+001F and the
next-line control U+0085 count as blank.
-/

namespace HookGen

def blankRanges : List (Nat × Nat) := [
  (0x9, 0xD), (0x1C, 0x20), (0x85, 0x85), (0xA0, 0xA0), (0x1680, 0x1680), (0x2000, 0x200A),
  (0x2028, 0x2029), (0x202F, 0x202F), (0x205F, 0x205F), (0x3000, 0x3000)]

def CodePoint.isBlank (c : CodePoint) : Bool :=
  blankRanges.any fun range => range.1 ≤ c.toNat && c.toNat ≤ range.2

namespace Text

-- The text without the blanks at its ends.
def trim (t : Text) : Text :=
  ((t.dropWhile CodePoint.isBlank).reverse.dropWhile CodePoint.isBlank).reverse

-- Whether a text has no character but blanks.
def isBlank (t : Text) : Bool := t.all CodePoint.isBlank

-- The longest runs of characters that are not blank, given the run that is open on the left.
def wordsFrom (run : Text) : Text → List Text
  | [] => if run.isEmpty then [] else [run.reverse]
  | c :: rest =>
    if c.isBlank then
      if run.isEmpty then wordsFrom [] rest else run.reverse :: wordsFrom [] rest
    else
      wordsFrom (c :: run) rest

def words (t : Text) : List Text := wordsFrom [] t

end Text

end HookGen
