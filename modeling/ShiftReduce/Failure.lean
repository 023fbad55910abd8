import ShiftReduce.Disk
import ShiftReduce.Lex.Quoted
import ShiftReduce.Number.Integer
import ShiftReduce.SyntaxError
import ShiftReduce.Table.Reader
import ShiftReduce.Text.Utf8
import ShiftReduce.Wire.Quote

/-! # Failures

A failure ends a run. It is a disagreement between a table and its rules, an input that cannot be
had, a value that a rule refuses, or a fault in how the library is used.
-/

namespace ShiftReduce

/-! ## Bad bytes -/

def Text.Utf8.Reason.message : Text.Utf8.Reason → String
  | .badStart => "invalid start byte"
  | .badContinuation => "invalid continuation byte"
  | .cutOff => "unexpected end of data"

def Text.Utf8.Fault.message (f : Text.Utf8.Fault) : String :=
  let place :=
    if f.length = 1 then s!"byte 0x{String.ofList (Text.hex 2 f.byte)} in position {f.position}"
    else s!"bytes in position {f.position}-{f.position + f.length - 1}"
  s!"'utf-8' codec can't decode {place}: " ++ f.reason.message

/-! ## Tables and rules that do not fit -/

inductive ConfigFault where
  | tableLine (table : String) (line : Nat) (fault : Table.LineFault)
  | registeredTwice (rule : Int)
  | negativeArity (rule : Int) (arity : Int)
  | unregistered (table : String) (rules : List Int)
  | underflow (rule : Int)
  | noGoto (table : String) (state : Int) (lhs : String)
  | unknownAction (label : Label)
  | leftOver (values : Nat)
deriving DecidableEq, Repr

def ConfigFault.message : ConfigFault → String
  | .tableLine table line fault => s!"{table}:{line}: " ++ fault.message
  | .registeredTwice rule => s!"reduction rule {rule} registered twice"
  | .negativeArity rule arity => s!"rule {rule}: negative arity {arity}"
  | .unregistered table rules =>
    s!"{table}: no reduction registered for " ++ ", ".intercalate (rules.map fun r => s!"r{r}")
  | .underflow rule => s!"r{rule}: parse stack underflow"
  | .noGoto table state lhs => s!"{table}: GOTO missing for state={state}, lhs={lhs}"
  | .unknownAction label => "unknown table action: " ++ label.display
  | .leftOver values => s!"accepted with {values} values on the stack"

/-! ## Inputs that cannot be had -/

inductive Attempt where
  | readTable
  | readInput
  | openInput
deriving DecidableEq, Repr

def Attempt.message : Attempt → String
  | .readTable => "cannot read table"
  | .readInput => "cannot read"
  | .openInput => "cannot open"

inductive InputFault.Reason where
  | disk (fault : Disk.Fault)
  | bytes (fault : Text.Utf8.Fault)
deriving DecidableEq, Repr

def InputFault.Reason.message : InputFault.Reason → String
  | .disk fault => fault.message
  | .bytes fault => fault.message

structure InputFault where
  attempt : Attempt
  name : String
  reason : InputFault.Reason
  path : Option String
deriving DecidableEq, Repr

def InputFault.message (f : InputFault) : String :=
  s!"{f.attempt.message} '{f.name}': " ++ f.reason.message

/-! ## Values that a rule refuses -/

structure ReductionFault where
  rule : Int
  lhs : String
  reason : String
  /-- Where the machine stood, once it is known. -/
  place : Option Location
deriving DecidableEq, Repr

def ReductionFault.message (f : ReductionFault) : String :=
  let text := s!"r{f.rule} ({f.lhs}): {f.reason}"
  match f.place with
  | none => text
  | some l => errorLine l.name l.line text

/-! ## Arguments without a meaning -/

inductive ValueFault where
  | number (fault : Number.IntegerFault)
  | literal (fault : Quoted.Fault)
  | words (fault : Wire.WordFault)
  | noText
  | noStream
  | nulInPath
deriving DecidableEq, Repr

def ValueFault.message : ValueFault → String
  | .number fault => fault.message
  | .literal fault => fault.message
  | .words fault => fault.message
  | .noText => "TextSource needs a path or text"
  | .noStream => "WireSource needs a path or a stream"
  | .nulInPath => "embedded null byte"

/-- Uses of a thing that it does not allow, or not in its state. -/
inductive Misuse where
  | closedText
  | closedWire
  | unreadable
  | noSymbol
  | noSettings
  | noItem
  | tooLarge
  | noGrammar
deriving DecidableEq, Repr

def Misuse.message : Misuse → String
  | .closedText => "the text is not open"
  | .closedWire => "the token stream is not open"
  | .unreadable => "the input cannot be read"
  | .noSymbol => "no symbol is on the stack"
  | .noSettings => "the value holds no settings"
  | .noItem => "there is no item at this place"
  | .tooLarge => "the number is out of range"
  | .noGrammar => "no grammar is named"

/-! ## All of them -/

inductive Failure where
  | config (fault : ConfigFault)
  | input (fault : InputFault)
  | reduction (fault : ReductionFault)
  | value (fault : ValueFault)
  /-- A key that stands for nothing, in its displayed form. -/
  | unknownKey (shown : String)
  | misuse (fault : Misuse)
deriving DecidableEq, Repr

namespace Failure

def message : Failure → String
  | .config fault => fault.message
  | .input fault => fault.message
  | .reduction fault => fault.message
  | .value fault => fault.message
  | .unknownKey shown => shown
  | .misuse fault => fault.message

/-- The failures that the command line reports in one line. -/
def isFatal : Failure → Bool
  | .config _ | .input _ | .reduction _ => true
  | .value _ | .unknownKey _ | .misuse _ => false

/-- The failure of a text that is no table. -/
def ofTable (name : String) : Table.ReadFault → Failure
  | .line number fault => .config (.tableLine name number fault)
  | .number fault => .value (.number fault)

end Failure

end ShiftReduce
