import HookGen.Text.Basic
import HookGen.Text.Printable

/-!
A text quoted for a message: in single quotes, or in double ones where that saves escapes, with what
cannot be printed escaped.
-/

namespace HookGen

namespace CodePoint

-- A code point between the given quotes.
def quoted (quote : CodePoint) (c : CodePoint) : Text :=
  if c = quote ∨ c = '\\' then ['\\', c]
  else if c = '\t' then "\\t"
  else if c = '\n' then "\\n"
  else if c = '\r' then "\\r"
  else if c.isPrintable then [c]
  else if c.toNat < 0x100 then "\\x" ++ Text.ofNatHex 2 c.toNat
  else if c.toNat < 0x10000 then "\\u" ++ Text.ofNatHex 4 c.toNat
  else "\\U" ++ Text.ofNatHex 8 c.toNat

end CodePoint

-- Double quotes are used for a text that has single quotes and no double ones.
def Text.quoted (t : Text) : Text :=
  let quote : CodePoint := if t.contains '\'' && !t.contains '"' then '"' else '\''
  quote :: t.flatMap (CodePoint.quoted quote) ++ [quote]

end HookGen
