import ShiftReduce.Text.Display

/-! # Diagnostics

A syntax error says where an input went wrong, on which token, and which terminals could have stood
there.
-/

namespace ShiftReduce

/-- A line of an input. -/
structure Location where
  name : String
  line : Int
deriving DecidableEq, Repr

def Location.toText (l : Location) : String := s!"{l.name}:{l.line}"

/-- A diagnostic at a place. -/
def errorLine (file : String) (line : Int) (message : String) : String :=
  (Location.mk file line).toText ++ ": error: " ++ message

/-- A diagnostic that ends the run. -/
def fatalLine (message : String) : String := "fatal: " ++ message

structure SyntaxError where
  file : String
  line : Int
  /-- `none` at the end of all inputs. -/
  kind : Option String
  text : Option String
  expected : List String
deriving DecidableEq, Repr

namespace SyntaxError

/-- The token that was not expected. -/
def subject (e : SyntaxError) : String :=
  match e.kind with
  | none => "unexpected end of input"
  | some kind =>
    if kind = "eof" then "unexpected eof"
    else s!"unexpected {kind} " ++ (e.text.map Text.display).getD "None"

def message (e : SyntaxError) : String :=
  let head := "syntax error, " ++ e.subject
  if e.expected.isEmpty then head
  else head ++ ", expected one of \x7b" ++ ", ".intercalate e.expected ++ "\x7d"

def toText (e : SyntaxError) : String := errorLine e.file e.line e.message

end SyntaxError

end ShiftReduce
