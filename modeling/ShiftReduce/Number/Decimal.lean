import ShiftReduce.Number.Binary64
import ShiftReduce.Number.Integer

/-! # Reading a floating-point number

A number is digits with an optional point and an optional exponent, or one of the words for infinity
and for no number. Signs, blanks, scripts and underscores are treated as in integers, except that
underscores may also stand in the fraction and in the exponent.
-/

namespace ShiftReduce.Number

structure RealFault where
  text : String
deriving DecidableEq, Repr

def RealFault.message (f : RealFault) : String :=
  "could not convert string to float: " ++ Text.display f.text

/-- The exponent at the front of `cs`, if one is written in full, and what follows it. -/
def splitExponent (cs : List Char) : Int × List Char :=
  match cs with
  | c :: r =>
    if c = 'e' ∨ c = 'E' then
      let (negative, body) := splitSign r
      let ds := body.takeWhile Char.isDigit
      if ds.isEmpty then (0, cs)
      else
        let n : Int := digitsValue ds
        (if negative then -n else n, body.dropWhile Char.isDigit)
    else (0, cs)
  | [] => (0, [])

/-- The fraction at the front of `cs`, and what follows it. -/
def splitFraction : List Char → List Char × List Char
  | '.' :: cs => (cs.takeWhile Char.isDigit, cs.dropWhile Char.isDigit)
  | cs => ([], cs)

/-- A number without sign, which has to fill the whole text. -/
def readDecimal? (negative : Bool) (cs : List Char) : Option Binary64 :=
  let whole := cs.takeWhile Char.isDigit
  let (fraction, rest) := splitFraction (cs.dropWhile Char.isDigit)
  let (exponent, rest) := splitExponent rest
  let digits := whole ++ fraction
  if digits.isEmpty || !rest.isEmpty then none
  else some (.ofDecimal negative (digitsValue digits) (exponent - fraction.length))

def readMagnitude? (negative : Bool) (cs : List Char) : Option Binary64 :=
  let word := String.ofList (cs.map Char.toLower)
  if word = "nan" then some .nan
  else if word = "inf" ∨ word = "infinity" then some (.infinite negative)
  else readDecimal? negative cs

def readReal (text : String) : Except RealFault Binary64 :=
  let cs := text.toList.map plainChar
  let (negative, body) := splitSign (Text.trimBy Text.isAsciiBlank (cs.filter (· != '_')))
  match if underscoresFit false cs then readMagnitude? negative body else none with
  | some x => .ok x
  | none => .error ⟨text⟩

end ShiftReduce.Number
