import ShiftReduce.Text.Printable

/-! # The displayed form of a text

Messages show a text between quotes, on one line and without a character that cannot be seen.
-/

namespace ShiftReduce.Text

/-- The hexadecimal digits of `n`, lower case, `width` of them. -/
def hex (width n : Nat) : List Char :=
  let ds := Nat.toDigits 16 n
  List.replicate (width - ds.length) '0' ++ ds

/-- An unprintable character is written with the shortest of three escapes. -/
def hexEscape (c : Char) : List Char :=
  let n := c.toNat
  if n < 0x100 then '\\' :: 'x' :: hex 2 n
  else if n < 0x10000 then '\\' :: 'u' :: hex 4 n
  else '\\' :: 'U' :: hex 8 n

def displayChar (quote c : Char) : List Char :=
  if c = quote ∨ c = '\\' then ['\\', c]
  else if c = '\n' then ['\\', 'n']
  else if c = '\r' then ['\\', 'r']
  else if c = '\t' then ['\\', 't']
  else if isPrintable c then [c]
  else hexEscape c

/-- Single quotes, unless only single quotes occur in the text. -/
def displayQuote (cs : List Char) : Char :=
  if cs.contains '\'' && !cs.contains '"' then '"' else '\''

def display (s : String) : String :=
  let q := displayQuote s.toList
  String.ofList (q :: s.toList.flatMap (displayChar q) ++ [q])

end ShiftReduce.Text
