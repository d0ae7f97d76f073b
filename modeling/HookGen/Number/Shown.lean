import HookGen.Number.Binary64

/-!
The text of a double-precision number: the shortest digits that read back, positional from 0.0001 up
to 10^16 and with an exponent of at least two digits elsewhere.
-/

namespace HookGen

namespace Binary64

-- Positional digits with `point` of them before the decimal point.
def positional (digits : Text) (point : Int) : Text :=
  if point ≤ 0 then
    "0." ++ Text.zeros (-point).toNat ++ digits
  else if digits.length ≤ point.toNat then
    digits ++ Text.zeros (point.toNat - digits.length) ++ ".0"
  else
    digits.take point.toNat ++ "." ++ digits.drop point.toNat

-- One digit, the others behind a point, and the exponent.
def scientific (digits : Text) (e : Int) : Text :=
  let fraction : Text := if digits.length ≤ 1 then [] else "." ++ digits.drop 1
  let mark : Text := if e < 0 then "e-" else "e+"
  let magnitude := Text.ofNat e.natAbs
  digits.take 1 ++ fraction ++ mark ++ Text.zeros (2 - magnitude.length) ++ magnitude

-- The text of a finite number without its sign.
def shownMagnitude (x : Binary64) : Text :=
  let decimal := x.shortest
  -- zeros at the end of the digits belong to the exponent
  let digits := (Text.ofNat decimal.digits).reverse.dropWhile (· == .char '0') |>.reverse
  if digits.isEmpty then "0.0"
  else
    let point := (Text.ofNat decimal.digits).length + decimal.exponent
    if -4 < point ∧ point ≤ 16 then positional digits point else scientific digits (point - 1)

-- The words for infinity and for what is not a number differ between formats.
def shownWith (infinityWord nanWord : Text) (x : Binary64) : Text :=
  let sign : Text := if x.isNegative then "-" else []
  if x.isNan then nanWord
  else if x.isInfinite then sign ++ infinityWord
  else sign ++ x.shownMagnitude

end Binary64

end HookGen
