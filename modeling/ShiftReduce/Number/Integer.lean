import ShiftReduce.Text.Blank
import ShiftReduce.Text.Digit
import ShiftReduce.Text.Display

/-! # Reading an integer

Digits of any script count, a single underscore may stand between two digits, and blanks around the
number are dropped. A number with too many digits is refused before anything behind it is looked at.
-/

namespace ShiftReduce.Number

/-- The most digits an integer may be written with. -/
def maxDigits : Nat := 4300

inductive IntegerFault where
  | malformed (text : String)
  | tooLong (digits : Nat)
deriving DecidableEq, Repr

/-- How many characters of a malformed number a message shows. -/
def shownLimit : Nat := 200

def IntegerFault.message : IntegerFault → String
  | .malformed text =>
    "invalid literal for int() with base 10: " ++
      String.ofList ((Text.display text).toList.take shownLimit)
  | .tooLong digits =>
    s!"Exceeds the limit ({maxDigits} digits) for integer string conversion: value has {digits} " ++
      "digits; use sys.set_int_max_str_digits() to increase the limit"

/-- The ASCII form of a character of a number: a digit of any script becomes the ASCII digit, a
blank beyond ASCII a space, and what else lies there cannot be part of a number. -/
def plainChar (c : Char) : Char :=
  if c.toNat < 0x7F then c
  else if Text.isBlank c then ' '
  else
    match Text.digitValue? c with
    | some d => Text.digitChar d
    | none => '?'

/-- The sign in front of a number, and what follows it. -/
def splitSign : List Char → Bool × List Char
  | '-' :: cs => (true, cs)
  | '+' :: cs => (false, cs)
  | cs => (false, cs)

/-- Every underscore has a digit on both sides; `digit` tells whether one stands in front. -/
def underscoresFit (digit : Bool) : List Char → Bool
  | [] => true
  | '_' :: cs =>
    digit && (match cs with | [] => false | d :: _ => d.isDigit) && underscoresFit false cs
  | c :: cs => underscoresFit c.isDigit cs

/-- The value of ASCII digits, in base ten. -/
def digitsValue (ds : List Char) : Nat := ds.foldl (fun n d => 10 * n + (d.toNat - 0x30)) 0

def isNumberChar (c : Char) : Bool := c.isDigit || c == '_'

/-- Reads the digits at the front of `body`, and refuses whatever follows them. -/
def readMagnitude (text : String) (body : List Char) : Except IntegerFault Nat :=
  let run := body.takeWhile isNumberChar
  let digits := run.filter Char.isDigit
  if digits.isEmpty || !underscoresFit false run then .error (.malformed text)
  else if maxDigits < digits.length then .error (.tooLong digits.length)
  else if !(body.dropWhile isNumberChar).isEmpty then .error (.malformed text)
  else .ok (digitsValue digits)

def readInteger (text : String) : Except IntegerFault Int :=
  let (negative, body) := splitSign (Text.trimBy Text.isAsciiBlank (text.toList.map plainChar))
  (readMagnitude text body).map fun n => if negative then -(n : Int) else n

end ShiftReduce.Number
