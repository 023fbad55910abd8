import ShiftReduce.Number.Integer
import ShiftReduce.Token
import ShiftReduce.Wire.Quote

/-! # Events as lines of text

A mark is written as its number, a token as its kind, a colon and its quoted text.
-/

namespace ShiftReduce.Wire

def encodeChars : Event → List Char
  | .mark line => (toString line).toList
  | .token t => t.kind.toList ++ ':' :: quoteChars t.text.toList

def encode (e : Event) : String := String.ofList (encodeChars e)

/-- A kind in front of a colon, and the quoted text after it. -/
def splitToken? (cs : List Char) : Option (List Char × List Char) :=
  let kind := cs.takeWhile (· != ':')
  match cs.dropWhile (· != ':') with
  | ':' :: '\'' :: payload => if Text.isName kind then some (kind, '\'' :: payload) else none
  | _ => none

/-- The token of a line, if it is well formed and of a known kind. -/
def tokenOf? (cs : List Char) : Option Token :=
  match splitToken? cs with
  | none => none
  | some (kind, payload) =>
    match unquoteChars payload with
    | .error _ => none
    | .ok text =>
      let kind := String.ofList kind
      if terminals.contains kind then some ⟨kind, String.ofList text⟩ else none

/-- The event of a line. A line that is neither a number nor a token becomes an invalid token that
carries its text; only a number with too many digits is a fault. -/
def decodeChars (cs : List Char) : Except Number.IntegerFault Event :=
  if !cs.isEmpty && cs.all Char.isDigit then
    (Number.readInteger (String.ofList cs)).map Event.mark
  else
    .ok (.token ((tokenOf? cs).getD ⟨"invalid", String.ofList cs⟩))

def decode (line : String) : Except Number.IntegerFault Event := decodeChars line.toList

end ShiftReduce.Wire
