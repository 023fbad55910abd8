import ShiftReduce.Grammar.Literal

/-! # The settings language

A text is a sequence of statements that set and unset names:

    L     -> ε | L stmt
    stmt  -> kw_set ident equal value semicolon | kw_unset ident semicolon
    value -> integer | float | string_d | string_s | ident

Its value is the settings at the end, in the order in which their names were set. A name that is set
again keeps its place.
-/

namespace ShiftReduce.Settings

/-! ## What the statements do -/

inductive Statement where
  | set (name : String) (value : Value)
  | unset (name : String)

/-- A name stands for the value that it has, or else for itself. -/
def resolve (es : Entries) : Value → Value
  | .ref name => (es.get? name).getD name
  | v => v

def apply (es : Entries) : Statement → Entries
  | .set name v => es.insert (.text name) (resolve es v)
  | .unset name => es.erase (.text name)

/-- The settings after some statements. -/
def applyAll (es : Entries) (ss : List Statement) : Entries := ss.foldl apply es

/-- The row of values that stands for a statement. -/
def Statement.toValue : Statement → Value
  | .set name v => .tuple [.text "set", .text name, v]
  | .unset name => .tuple [.text "unset", .text name]

/-! ## The table and its rules -/

def tableText : String :=
  "0 kw_set r1\n" ++
  "0 kw_unset r1\n" ++
  "0 eof r1\n" ++
  "0 L 1\n" ++
  "1 eof acc\n" ++
  "1 kw_set s2\n" ++
  "1 kw_unset s3\n" ++
  "1 stmt 4\n" ++
  "2 ident s5\n" ++
  "3 ident s6\n" ++
  "4 kw_set r2\n" ++
  "4 kw_unset r2\n" ++
  "4 eof r2\n" ++
  "5 equal s7\n" ++
  "6 semicolon s8\n" ++
  "7 integer s10\n" ++
  "7 float s11\n" ++
  "7 string_d s12\n" ++
  "7 string_s s13\n" ++
  "7 ident s14\n" ++
  "7 value 9\n" ++
  "8 kw_set r4\n" ++
  "8 kw_unset r4\n" ++
  "8 eof r4\n" ++
  "9 semicolon s15\n" ++
  "10 semicolon r5\n" ++
  "11 semicolon r6\n" ++
  "12 semicolon r7\n" ++
  "13 semicolon r8\n" ++
  "14 semicolon r9\n" ++
  "15 kw_set r3\n" ++
  "15 kw_unset r3\n" ++
  "15 eof r3\n"

/-- The value to be set, with a name resolved. -/
def resolved (settings : Value) : Value → Except Refusal Value
  | .ref name => Access.lookup settings name
  | v => .ok v

/-- Adds a statement to what the statements before it have done. A row that starts with anything but
`set` takes a name away. -/
def append : List Value → Except Refusal Value
  | [settings, row] => do
    match ← Access.item row 0 with
    | .text "set" =>
      let (_, name, v) ← Access.three (Access.items row)
      Access.put settings name (← resolved settings v)
    | _ => Access.remove settings (Access.item row 1)
  | _ => Access.refused "expected two operands"

def setting : List Value → Except Refusal Value
  | [_, name, _, v, _] => .ok (.tuple [.text "set", name, v])
  | _ => Access.refused "expected five operands"

def unsetting : List Value → Except Refusal Value
  | [_, name, _] => .ok (.tuple [.text "unset", name])
  | _ => Access.refused "expected three operands"

def rules : Rules Value :=
  ⟨[(1, .ofValues "L" 0 fun _ => .ok (.dict [])),
    (2, .ofValues "L" 2 append),
    (3, .ofValues "stmt" 5 setting),
    (4, .ofValues "stmt" 3 unsetting),
    (5, .ofValue "value" Literal.integer),
    (6, .ofValue "value" Literal.real),
    (7, .ofValue "value" Literal.string),
    (8, .ofValue "value" Literal.string),
    (9, .ofValue "value" Literal.reference)]⟩

/-! ## The rule for statements does what the statements do -/

/-- A value that can be set: if it is a name, the name can be looked up. -/
def Settable : Value → Prop
  | .ref name => name.unfit? = none
  | _ => True

@[simp]
theorem key_text (name : String) : Access.key (.text name) = .ok (.text name) := by
  simp [Access.key, Value.unfit?]

theorem resolved_dict (es : Entries) {v : Value} (h : Settable v) :
    resolved (.dict es) v = .ok (resolve es v) := by
  cases v with
  | ref name =>
    simp only [Settable] at h
    simp [resolved, resolve, Access.lookup, Access.key, h, Except.map]
  | _ => rfl

theorem append_set (es : Entries) (name : String) {v : Value} (h : Settable v) :
    append [.dict es, (Statement.set name v).toValue] =
      .ok (.dict (apply es (.set name v))) := by
  simp [append, Statement.toValue, Access.item, Access.itemAt, Access.place?, Access.three,
    Access.items, Access.put, resolved_dict es h, key_text, apply, bind, Except.bind, Except.map]

theorem append_unset (es : Entries) (name : String) :
    append [.dict es, (Statement.unset name).toValue] =
      .ok (.dict (apply es (.unset name))) := by
  cases es with
  | nil =>
    simp [append, Statement.toValue, Access.item, Access.itemAt, Access.place?, Access.remove,
      apply, Entries.erase, bind, Except.bind, pure, Except.pure]
  | cons e es =>
    simp [append, Statement.toValue, Access.item, Access.itemAt, Access.place?, Access.remove,
      key_text, apply, bind, Except.bind, pure, Except.pure]

/-! ## Writing settings -/

/-- A text is written as a literal. -/
def renderValue : Value → String
  | .text s => Quoted.quote "\"" s
  | v => v.display

def renderEntry (e : Value × Value) : String := e.1.plain ++ " = " ++ renderValue e.2

def render : Value → Except Failure Value
  | .dict es => .ok (.text ("\n".intercalate (es.map renderEntry)))
  | _ => .error (.misuse .noSettings)

end ShiftReduce.Settings
