import ShiftReduce.Text.Display

/-! # String literals

`encode` writes a content as the one canonical literal, `decode` reads the content between the
quotes of any literal.
-/

namespace ShiftReduce.Quoted

/-! ## Reading -/

def hexDigit? (c : Char) : Option Nat :=
  let n := c.toNat
  if 0x30 ≤ n ∧ n ≤ 0x39 then some (n - 0x30)
  else if 0x41 ≤ n ∧ n ≤ 0x46 then some (n - 0x41 + 10)
  else if 0x61 ≤ n ∧ n ≤ 0x66 then some (n - 0x61 + 10)
  else none

/-- The character with the code of two hexadecimal digits. -/
def hexPair? (h l : Char) : Option Char :=
  match hexDigit? h, hexDigit? l with
  | some a, some b => some (Char.ofNat (16 * a + b))
  | _, _ => none

/-- What a character stands for behind a backslash. One without a meaning of its own stands for
itself. -/
def escaped (c : Char) : Char :=
  if c = 'n' then '\n'
  else if c = 't' then '\t'
  else if c = 'r' then '\r'
  else if c = '0' then Char.ofNat 0
  else c

/-- The content of a literal's body. A backslash at the very end stands for itself. -/
def decode : List Char → List Char
  | [] => []
  | '\\' :: 'x' :: h :: l :: cs =>
    match hexPair? h l with
    | some c => c :: decode cs
    | none => 'x' :: decode (h :: l :: cs)
  | '\\' :: c :: cs => escaped c :: decode cs
  | c :: cs => c :: decode cs

/-! ## Writing -/

/-- A character within a literal with the given delimiter. -/
def encodeChar (delim : List Char) (c : Char) : List Char :=
  if delim = [c] then ['\\', c]
  else if c = '\\' then ['\\', '\\']
  else if c = '\n' then ['\\', 'n']
  else if c = '\t' then ['\\', 't']
  else if c = '\r' then ['\\', 'r']
  else if c.toNat < 0x20 ∨ c.toNat = 0x7F then '\\' :: 'x' :: Text.hex 2 c.toNat
  else [c]

def encode (delim content : List Char) : List Char :=
  delim ++ content.flatMap (encodeChar delim) ++ delim

/-- The canonical literal of a content. -/
def quote (delim content : String) : String :=
  String.ofList (encode delim.toList content.toList)

/-! ## The content of a literal -/

def isQuote (c : Char) : Bool := c == '"' || c == '\''

/-- What stands between the equal quotes at both ends of a literal. -/
def body? : List Char → Option (List Char)
  | q :: r :: cs => if isQuote q ∧ (r :: cs).getLast? = some q then some (r :: cs).dropLast else none
  | _ => none

structure Fault where
  text : String
deriving DecidableEq, Repr

def Fault.message (f : Fault) : String := "not a string literal: " ++ Text.display f.text

def content (text : String) : Except Fault String :=
  match body? text.toList with
  | some body => .ok (String.ofList (decode body))
  | none => .error ⟨text⟩

end ShiftReduce.Quoted
