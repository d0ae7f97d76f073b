import HookGen.Json.Basic

/-!
Printing JSON. A text comes in pieces, each of which is written in one go.
-/

namespace HookGen.Json

-- How values are laid out. Without an indent a value is on one line.
structure Style where
  indent : Option Nat := none
  asciiOnly : Bool := true
  deriving DecidableEq, Repr

-- The escape of one unit of sixteen bits.
def escapeUnit (n : Nat) : Text := "\\u" ++ Text.ofNatHex 4 n

def escapeCodePoint (asciiOnly : Bool) (c : CodePoint) : Text :=
  if c = '"' then "\\\""
  else if c = '\\' then "\\\\"
  else if c = '\n' then "\\n"
  else if c = '\r' then "\\r"
  else if c = '\t' then "\\t"
  else if c.toNat = 8 then "\\b"
  else if c.toNat = 12 then "\\f"
  else if c.toNat < 0x20 then escapeUnit c.toNat
  else if !asciiOnly || c.toNat < 0x7F then [c]
  else if c.toNat < 0x10000 then escapeUnit c.toNat
  else
    let offset := c.toNat - 0x10000
    escapeUnit (0xD800 + offset / 1024) ++ escapeUnit (0xDC00 + offset % 1024)

def quote (asciiOnly : Bool) (t : Text) : Text :=
  "\"" ++ t.flatMap (escapeCodePoint asciiOnly) ++ "\""

-- What starts a new entry at the given depth, if entries have lines of their own.
def newline (style : Style) (depth : Nat) : Text :=
  match style.indent with
  | none => []
  | some n => "\n" ++ Text.spaces (n * depth)

def separator (style : Style) (depth : Nat) : Text :=
  if style.indent.isNone then ", " else "," ++ newline style depth

-- The text of a value that has no parts.
def atom? (style : Style) : Json → Option Text
  | .null => some "null"
  | .bool true => some "true"
  | .bool false => some "false"
  | .int value => some (Text.ofInt value)
  | .float value => some (value.shownWith "Infinity" "NaN")
  | .str value => some (quote style.asciiOnly value)
  | .arr [] => some "[]"
  | .obj [] => some "\x7b\x7d"
  | .arr _ => none
  | .obj _ => none

mutual

def piecesAt (style : Style) (depth : Nat) : Json → List Text
  | .arr (element :: rest) =>
    let closing : List Text := [newline style depth, "]"]
    elementPieces style (depth + 1) ("[" ++ newline style (depth + 1)) (element :: rest) ++ closing
  | .obj (field :: rest) =>
    let opening : List Text := ["\x7b", newline style (depth + 1)]
    let closing : List Text := [newline style depth, "\x7d"]
    opening ++ fieldPieces style (depth + 1) (field :: rest) ++ closing
  | value => (atom? style value).toList

-- The pieces of the elements of a list, with `lead` in front of the first.
def elementPieces (style : Style) (depth : Nat) (lead : Text) : List Json → List Text
  | [] => []
  | element :: rest =>
    let own := match atom? style element with
      | some atom => [lead ++ atom]
      | none => lead :: piecesAt style depth element
    own ++ elementPieces style depth (separator style depth) rest

def fieldPieces (style : Style) (depth : Nat) : List (Text × Json) → List Text
  | [] => []
  | (name, value) :: rest =>
    let between := if rest.isEmpty then [] else [separator style depth]
    quote style.asciiOnly name :: ": " :: piecesAt style depth value ++ between ++
      fieldPieces style depth rest

end

def pieces (style : Style) (value : Json) : List Text := piecesAt style 0 value

def print (style : Style) (value : Json) : Text := (pieces style value).flatten

end HookGen.Json
