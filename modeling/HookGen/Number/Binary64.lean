import HookGen.Text.Basic

/-!
Double-precision numbers as their 64 bits: reading a decimal with correct rounding, and the shortest
decimal that reads back as the number.
-/

namespace HookGen

structure Binary64 where
  bits : UInt64
  deriving DecidableEq, Repr

namespace Binary64

-- The first bit is the sign, the next eleven are the exponent field and the others the fraction field.
def fractionSize : Nat := 0x10000000000000

def signSize : Nat := 0x8000000000000000

def signBit (negative : Bool) : Nat := if negative then signSize else 0

def infinity (negative : Bool) : Binary64 := ⟨(signBit negative + 2047 * fractionSize).toUInt64⟩

def nan : Binary64 := ⟨(2047 * fractionSize + fractionSize / 2).toUInt64⟩

def isNegative (x : Binary64) : Bool := x.bits.toNat ≥ signSize

def exponentField (x : Binary64) : Nat := x.bits.toNat / fractionSize % 2048

def fractionField (x : Binary64) : Nat := x.bits.toNat % fractionSize

def isNan (x : Binary64) : Bool := x.exponentField == 2047 && x.fractionField != 0

def isInfinite (x : Binary64) : Bool := x.exponentField == 2047 && x.fractionField == 0

-- A finite number is its significand times two to the power of its exponent.
def significand (x : Binary64) : Nat :=
  if x.exponentField = 0 then x.fractionField else fractionSize + x.fractionField

def exponent (x : Binary64) : Int := if x.exponentField = 0 then -1074 else x.exponentField - 1075

-- A quotient rounded to the nearest integer, a half to the even one.
def roundDiv (num den : Nat) : Nat :=
  let q := num / den
  let r := num % den
  if 2 * r < den then q
  else if 2 * r > den then q + 1
  else if q % 2 = 0 then q
  else q + 1

-- The quotient divided by two to the power of `e`, as a quotient.
def scaled (num den : Nat) (e : Int) : Nat × Nat :=
  if e ≥ 0 then (num, den <<< e.toNat) else (num <<< (-e).toNat, den)

-- The number nearest to a positive quotient. The exponent is the largest that leaves 53 bits to the
-- significand, or the least one there is; a significand that rounds up to 2^53 carries into the
-- exponent field.
def ofQuotient (negative : Bool) (num den : Nat) : Binary64 :=
  let guess : Int := (num.log2 : Int) - (den.log2 : Int) - 52
  let (n, d) := scaled num den guess
  let fitted := if n / d < fractionSize then guess - 1 else guess
  let e := max fitted (-1074)
  let (n, d) := scaled num den e
  let magnitude := (e + 1074).toNat * fractionSize + roundDiv n d
  if magnitude ≥ 2047 * fractionSize then infinity negative
  else ⟨(signBit negative + magnitude).toUInt64⟩

def tenTo (n : Nat) : Nat := Nat.pow 10 n

-- The number nearest to `digits` times ten to the power of `e`. Decimals whose first digit stands
-- far outside the range need no arithmetic.
def ofDecimal (negative : Bool) (digits : Nat) (e : Int) : Binary64 :=
  if digits = 0 then ⟨(signBit negative).toUInt64⟩
  else
    let top : Int := (Nat.toDigits 10 digits).length + e
    if top > 400 then infinity negative
    else if top < -400 then ⟨(signBit negative).toUInt64⟩
    else if e ≥ 0 then ofQuotient negative (digits * tenTo e.toNat) 1
    else ofQuotient negative digits (tenTo (-e).toNat)

-- The absolute value of a finite number as a quotient.
def toQuotient (x : Binary64) : Nat × Nat := scaled x.significand 1 (-x.exponent)

-- A decimal: `digits` times ten to the power of `exponent`.
structure Decimal where
  digits : Nat
  exponent : Int
  deriving DecidableEq, Repr

-- Of the two neighbours of `num / den` on the grid of multiples of ten to the power of `e`, the
-- nearest one that reads back as `x`; of two equally near ones the one whose last digit is even.
def neighbour? (x : Binary64) (num den : Nat) (e : Int) : Option Decimal :=
  let (n, d) := if e ≥ 0 then (num, den * tenTo e.toNat) else (num * tenTo (-e).toNat, den)
  let low := n / d
  let near := roundDiv n d
  let candidates := [near, if near = low then low + 1 else low]
  (candidates.find? fun digits => ofDecimal x.isNegative digits e == x).map (⟨·, e⟩)

-- Search the grids from the coarse to the fine one.
def shortestFrom (x : Binary64) (num den : Nat) (e : Int) : Nat → Decimal
  | 0 => ⟨num * tenTo (-e).toNat / (den * tenTo e.toNat), e⟩
  | tries + 1 =>
    match neighbour? x num den e with
    | some decimal => decimal
    | none => shortestFrom x num den (e - 1) tries

-- The decimal with the fewest digits that reads back as the finite number. The first grid is one
-- whose step is above the number.
def shortest (x : Binary64) : Decimal :=
  if x.significand = 0 then ⟨0, 0⟩
  else
    let (num, den) := x.toQuotient
    let e : Int := (Nat.toDigits 10 (num / den)).length
    let start : Int := if num / den = 0 then -((Nat.toDigits 10 (den / num)).length - 1 : Int) else e
    shortestFrom x num den start 20

end Binary64

end HookGen
