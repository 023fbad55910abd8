import ShiftReduce.Number.Binary64

/-! # Writing a floating-point number

A value is written with the fewest digits that still round to it, and of those with the nearest.
-/

namespace ShiftReduce.Number.Binary64

/-- `digits * 10 ^ exponent`. -/
structure Decimal where
  digits : Nat
  exponent : Int
deriving DecidableEq, Repr

/-- Compares `a * 10 ^ i` with `n * 2 ^ j`. -/
def compareScaled (a : Nat) (i : Int) (n : Nat) (j : Int) : Ordering :=
  compare (a * tenTo i.toNat * twoTo (-j).toNat) (n * twoTo j.toNat * tenTo (-i).toNat)

/-- Whether a decimal rounds to `m * 2 ^ q`. It has to lie no further away than halfway to the two
neighbours, and the halfway points count when the mantissa is even. Below a power of two the
neighbour is twice as near. -/
def roundsTo (m : Nat) (q : Int) (d : Decimal) : Bool :=
  let narrow := m == twoTo 52 && q != minExponent
  let low := compareScaled d.digits d.exponent (4 * m - if narrow then 1 else 2) (q - 2)
  let high := compareScaled d.digits d.exponent (4 * m + 2) (q - 2)
  let even := m % 2 == 0
  (low == .gt || (even && low == .eq)) && (high == .lt || (even && high == .eq))

/-- The number of places in front of the point: the least `k` with `m * 2 ^ q < 10 ^ k`. -/
def places (m : Nat) (q : Int) : Int :=
  let n := m * twoTo q.toNat
  let d := twoTo (-q).toNat
  let k : Int := (decimalLength n : Int) - (decimalLength d : Int)
  if compareScaled 1 k m q == .gt then k else k + 1

/-- The nearer of two neighbours on the grid `10 ^ e` that both round to the value; halfway between
them the even one. -/
def nearer (m : Nat) (q : Int) (f : Nat) (e : Int) : Nat :=
  match compareScaled (2 * f + 1) e (2 * m) q with
  | .gt => f
  | .lt => f + 1
  | .eq => if f % 2 = 0 then f else f + 1

/-- The decimal with last place `10 ^ e` that rounds to the value, if there is one. -/
def onGrid? (m : Nat) (q : Int) (e : Int) : Option Decimal :=
  let f := (m * twoTo q.toNat * tenTo (-e).toNat) / (twoTo (-q).toNat * tenTo e.toNat)
  match roundsTo m q ⟨f, e⟩, roundsTo m q ⟨f + 1, e⟩ with
  | true, true => some ⟨nearer m q f e, e⟩
  | true, false => some ⟨f, e⟩
  | false, true => some ⟨f + 1, e⟩
  | false, false => none

/-- The shortest decimal that rounds to a value other than zero. Seventeen digits are enough; the
exact value stands where the search would come back empty. -/
def shortest (m : Nat) (q : Int) : Decimal :=
  let k := places m q
  match (List.range 17).findSome? fun (n : Nat) => onGrid? m q (k - (n + 1)) with
  | some d => d
  | none => ⟨m * twoTo q.toNat * Nat.pow 5 (-q).toNat, -(-q).toNat⟩

/-! ## Layout -/

/-- Decimal digits without the zeros at the end. -/
def significant (n : Nat) : List Char :=
  ((Nat.toDigits 10 n).reverse.dropWhile (· == '0')).reverse

def zeros (n : Nat) : List Char := List.replicate n '0'

/-- Digits whose point stands `point` places after their start, with one digit at least on either
side of it. -/
def positional (ds : List Char) (point : Int) : List Char :=
  if point ≤ 0 then '0' :: '.' :: zeros (-point).toNat ++ ds
  else
    let n := point.toNat
    if ds.length ≤ n then ds ++ zeros (n - ds.length) ++ ['.', '0']
    else ds.take n ++ '.' :: ds.drop n

/-- One digit in front of the point, and an exponent with a sign and two digits at least. -/
def scientific (ds : List Char) (e : Int) : List Char :=
  let fraction := if ds.length ≤ 1 then [] else '.' :: ds.drop 1
  let size := Nat.toDigits 10 e.natAbs
  ds.take 1 ++ fraction ++ 'e' :: (if e < 0 then '-' else '+') :: zeros (2 - size.length) ++ size

/-- A number is written with an exponent below `0.0001` and from `10 ^ 16` on. -/
def layout (ds : List Char) (point : Int) : List Char :=
  if -4 < point ∧ point ≤ 16 then positional ds point else scientific ds (point - 1)

def magnitude (m : Nat) (q : Int) : List Char :=
  if m = 0 then ['0', '.', '0']
  else
    let d := shortest m q
    layout (significant d.digits) ((decimalLength d.digits : Int) + d.exponent)

def toText : Binary64 → String
  | .nan => "nan"
  | .infinite negative => if negative then "-inf" else "inf"
  | .finite negative m q => String.ofList ((if negative then ['-'] else []) ++ magnitude m q)

end ShiftReduce.Number.Binary64
