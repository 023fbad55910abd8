/-! # Floating-point values

A finite value is `mantissa * 2 ^ exponent`, with the mantissa below `2 ^ 53` and the exponent not
below `-1074`. A decimal is rounded to the nearest value, a tie to the even mantissa.
-/

namespace ShiftReduce.Number

inductive Binary64 where
  | nan
  | infinite (negative : Bool)
  | finite (negative : Bool) (mantissa : Nat) (exponent : Int)
deriving DecidableEq, Repr

namespace Binary64

/-- A power of two. -/
def twoTo (n : Nat) : Nat := Nat.pow 2 n

/-- A power of ten. -/
def tenTo (n : Nat) : Nat := Nat.pow 10 n

def minExponent : Int := -1074

def maxExponent : Int := 971

/-- `num / den` to the nearest natural number, a tie to the even one. -/
def roundDiv (num den : Nat) : Nat :=
  let q := num / den
  match compare (2 * (num % den)) den with
  | .lt => q
  | .gt => q + 1
  | .eq => if q % 2 = 0 then q else q + 1

/-- The quotient of `num` and `den * 2 ^ e`, as a numerator and a denominator. -/
def scale (num den : Nat) (e : Int) : Nat × Nat :=
  (num * twoTo (-e).toNat, den * twoTo e.toNat)

/-- The exponent at which `num / den` has a mantissa of 53 bits, or the least one. -/
def exponentOf (num den : Nat) : Int :=
  let e := max minExponent ((num.log2 : Int) - (den.log2 : Int) - 53)
  let (n, d) := scale num den e
  if d * twoTo 53 ≤ n then e + 1 else e

/-- The value nearest to `num / den`. -/
def ofRatio (negative : Bool) (num den : Nat) : Binary64 :=
  let e := exponentOf num den
  let (n, d) := scale num den e
  let m := roundDiv n d
  let (m, e) := if m = twoTo 53 then (twoTo 52, e + 1) else (m, e)
  if maxExponent < e then .infinite negative else .finite negative m e

def zero (negative : Bool) : Binary64 := .finite negative 0 minExponent

/-- The number of decimal digits of `n`. -/
def decimalLength (n : Nat) : Nat := (Nat.toDigits 10 n).length

/-- The value nearest to `digits * 10 ^ exponent`. What is out of range by its length alone is
settled without computing the power. -/
def ofDecimal (negative : Bool) (digits : Nat) (exponent : Int) : Binary64 :=
  if digits = 0 then zero negative
  else if 310 < decimalLength digits + exponent then .infinite negative
  else if decimalLength digits + exponent < -330 then zero negative
  else ofRatio negative (digits * tenTo exponent.toNat) (tenTo (-exponent).toNat)

end Binary64

end ShiftReduce.Number
