import ShiftReduce.File
import ShiftReduce.Grammar.Nesting
import ShiftReduce.Grammar.Settings

/-! # The bundled grammars -/

namespace ShiftReduce

/-- A grammar: its table, its rules, and what is printed for a value. -/
structure Grammar where
  name : String
  tableFile : String
  tableText : String
  rules : Rules Value
  render : Value → Except Failure Value

namespace Grammar

def nesting : Grammar := ⟨"demo", "demo.tbl", Nesting.tableText, Nesting.rules, Nesting.render⟩

def settings : Grammar :=
  ⟨"assign", "assign.tbl", Settings.tableText, Settings.rules, Settings.render⟩

/-- All bundled grammars, ordered by name. -/
def bundled : List Grammar := [settings, nesting]

def names : List String := bundled.map Grammar.name

def find (name : String) : Except Failure Grammar :=
  match bundled.find? (·.name == name) with
  | some g => .ok g
  | none =>
    let choice := ", ".intercalate names
    .error (.unknownKey
      (Text.display s!"unknown grammar {Text.display name} (choose from {choice})"))

/-- Where the bundled tables lie. -/
def folder : String := "<grammars>"

def tablePath (g : Grammar) : String := folder ++ "/" ++ g.tableFile

def table (g : Grammar) : Except Failure Table := Table.parse g.tableText g.tablePath

end Grammar

end ShiftReduce
