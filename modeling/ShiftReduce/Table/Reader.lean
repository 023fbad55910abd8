import ShiftReduce.Number.Integer
import ShiftReduce.Table.Basic

/-! # Reading a table

Every line holds one entry: a state, a symbol, and what to do there. A number sign starts a comment.
A key may be given only once, whether for an action or for a goto.
-/

namespace ShiftReduce.Table

/-- What is wrong with a line. -/
inductive LineFault where
  | shape (line : String)
  | state (field : String)
  | symbol (field : String)
  | entry (field : String)
  | conflict (state : Int) (symbol : String)
deriving DecidableEq, Repr

def LineFault.message : LineFault → String
  | .shape line => "expected '<state> <symbol> <entry>', got " ++ Text.display line
  | .state field => "bad state number " ++ Text.display field
  | .symbol field => "bad symbol name " ++ Text.display field
  | .entry field => "bad table entry " ++ Text.display field
  | .conflict number name => s!"conflicting entries for state {number} on {name}"

/-- Why a text is no table: a bad line, or a number that cannot be read although it looks like
one. -/
inductive ReadFault where
  | line (number : Nat) (fault : LineFault)
  | number (fault : Number.IntegerFault)
deriving DecidableEq, Repr

/-! ## One line -/

/-- The third field of a line, with its number still to be read. -/
inductive EntryForm where
  | shift (digits : List Char)
  | reduce (digits : List Char)
  | accept
  | goto (digits : List Char)
deriving DecidableEq, Repr

def isNumeral (cs : List Char) : Bool := !cs.isEmpty && cs.all Char.isDigit

def EntryForm.of? (cs : List Char) : Option EntryForm :=
  if cs = ['a', 'c', 'c'] then some .accept
  else if isNumeral cs then some (.goto cs)
  else
    match cs with
    | 's' :: ds => if isNumeral ds then some (.shift ds) else none
    | 'r' :: ds => if isNumeral ds then some (.reduce ds) else none
    | _ => none

/-- The text of a line in front of its comment. -/
def uncommented (raw : List Char) : List Char := Text.trim (raw.takeWhile (· != '#'))

/-- The state, the symbol and the entry of a line. -/
structure Fields where
  state : List Char
  symbol : List Char
  entry : EntryForm
deriving DecidableEq, Repr

/-- Checks the form of a line's fields, in their order. -/
def splitLine (raw : List Char) : Except LineFault Fields :=
  match Text.fields (uncommented raw) with
  | [state, symbol, entry] =>
    if !state.all Text.isAnyDigit then .error (.state (String.ofList state))
    else if !Text.isName symbol then .error (.symbol (String.ofList symbol))
    else
      match EntryForm.of? entry with
      | some form => .ok ⟨state, symbol, form⟩
      | none => .error (.entry (String.ofList entry))
  | _ => .error (.shape (String.ofList (Text.trim raw)))

def hasKey (t : Table) (key : Key) : Bool :=
  t.actions.any (·.1 == key) || t.gotos.any (·.1 == key)

def readNumber (digits : List Char) : Except ReadFault Int :=
  match Number.readInteger (String.ofList digits) with
  | .ok n => .ok n
  | .error f => .error (.number f)

/-- Adds an entry under a key that is free. -/
def addEntry (t : Table) (key : Key) : EntryForm → Except ReadFault Table
  | .shift digits =>
    (readNumber digits).map fun n => { t with actions := t.actions ++ [(key, .shift n)] }
  | .reduce digits =>
    (readNumber digits).map fun n => { t with actions := t.actions ++ [(key, .reduce n)] }
  | .accept => .ok { t with actions := t.actions ++ [(key, .accept)] }
  | .goto digits => (readNumber digits).map fun n => { t with gotos := t.gotos ++ [(key, n)] }

/-- Adds the entry of line `number`; a line without any is passed over. -/
def addLine (t : Table) (number : Nat) (raw : List Char) : Except ReadFault Table :=
  if (uncommented raw).isEmpty then .ok t
  else
    match splitLine raw with
    | .error f => .error (.line number f)
    | .ok fields =>
      match readNumber fields.state with
      | .error f => .error f
      | .ok state =>
        let symbol := String.ofList fields.symbol
        if t.hasKey (state, symbol) then .error (.line number (.conflict state symbol))
        else t.addEntry (state, symbol) fields.entry

/-! ## A whole text -/

/-- Adds the entries of lines numbered from `number` on. -/
def addLines (t : Table) (number : Nat) : List (List Char) → Except ReadFault Table
  | [] => .ok t
  | raw :: rest =>
    match t.addLine number raw with
    | .error f => .error f
    | .ok t => t.addLines (number + 1) rest

def empty (name : String) (start : Int) : Table := ⟨[], [], start, name⟩

def ofText (text : String) (name : String := "<table>") (start : Int := 0) :
    Except ReadFault Table :=
  (empty name start).addLines 1 (Text.lines text.toList)

end ShiftReduce.Table
