/-! # Quoting a value

A value stands between single quotes. A single quote within it closes the quotes, stands behind a
backslash, and opens them again.
-/

namespace ShiftReduce.Wire

def quoteChar (c : Char) : List Char := if c = '\'' then ['\'', '\\', '\'', '\''] else [c]

def quoteChars (cs : List Char) : List Char := '\'' :: cs.flatMap quoteChar ++ ['\'']

def quote (text : String) : String := String.ofList (quoteChars text.toList)

/-! ## Words

Reading splits a text into words at blanks outside quotes. Between single quotes every character is
itself. Between double quotes a backslash takes away the meaning of a double quote or a backslash
after it, and outside quotes that of any character.
-/

inductive WordFault where
  | unclosed
  | nothingEscaped
  | count (words : Nat)
deriving DecidableEq, Repr

def WordFault.message : WordFault → String
  | .unclosed => "No closing quotation"
  | .nothingEscaped => "No escaped character"
  | .count words => s!"expected one quoted value, got {words}"

def isSeparator (c : Char) : Bool := c == ' ' || c == '\t' || c == '\r' || c == '\n'

/-- Where a reader of words stands. -/
inductive Mode where
  | between
  | bare
  | single
  | double
  | escaped
  | escapedInDouble
deriving DecidableEq, Repr

/-- The mode after a character that stands outside quotes and ends no word, and whether the
character is part of the word. -/
def Mode.enter (c : Char) : Mode × Bool :=
  if c = '\'' then (.single, false)
  else if c = '"' then (.double, false)
  else if c = '\\' then (.escaped, false)
  else (.bare, true)

/-- The words from a mode on, `word` being the one begun, last character first. -/
def wordsFrom (mode : Mode) (word : List Char) : List Char → Except WordFault (List (List Char))
  | [] =>
    match mode with
    | .between => .ok []
    | .bare => .ok [word.reverse]
    | .single | .double => .error .unclosed
    | .escaped | .escapedInDouble => .error .nothingEscaped
  | c :: cs =>
    match mode with
    | .between =>
      if isSeparator c then wordsFrom .between [] cs
      else
        let (mode, kept) := Mode.enter c
        wordsFrom mode (if kept then [c] else []) cs
    | .bare =>
      if isSeparator c then (wordsFrom .between [] cs).map (word.reverse :: ·)
      else
        let (mode, kept) := Mode.enter c
        wordsFrom mode (if kept then c :: word else word) cs
    | .single => if c = '\'' then wordsFrom .bare word cs else wordsFrom .single (c :: word) cs
    | .double =>
      if c = '"' then wordsFrom .bare word cs
      else if c = '\\' then wordsFrom .escapedInDouble word cs
      else wordsFrom .double (c :: word) cs
    | .escaped => wordsFrom .bare (c :: word) cs
    | .escapedInDouble =>
      if c = '"' ∨ c = '\\' then wordsFrom .double (c :: word) cs
      else wordsFrom .double (c :: '\\' :: word) cs

def words (cs : List Char) : Except WordFault (List (List Char)) := wordsFrom .between [] cs

/-- The single word of a text. -/
def unquoteChars (cs : List Char) : Except WordFault (List Char) :=
  match words cs with
  | .error e => .error e
  | .ok [w] => .ok w
  | .ok ws => .error (.count ws.length)

def unquote (payload : String) : Except WordFault String :=
  (unquoteChars payload.toList).map String.ofList

end ShiftReduce.Wire
