import ShiftReduce.Text.Display

/-! # Parse tables

A table gives an action for a state and a terminal, and a state to go to for a state and a
nonterminal. Its entries keep the order in which they were written.
-/

namespace ShiftReduce

/-- The label of an action that no machine knows. -/
inductive Label where
  | text (s : String)
  | number (n : Int)
deriving DecidableEq, Repr

def Label.display : Label → String
  | .text s => Text.display s
  | .number n => toString n

def Label.plain : Label → String
  | .text s => s
  | .number n => toString n

inductive Action where
  | shift (target : Int)
  | reduce (rule : Int)
  | accept
  | unknown (label : Label)
deriving DecidableEq, Repr

def Action.toText : Action → String
  | .shift target => s!"s{target}"
  | .reduce rule => s!"r{rule}"
  | .accept => "acc"
  | .unknown label => label.plain

/-! ## Sorted sets -/

/-- Puts an element into an ascending list, once. -/
def insertSorted {α : Type} [LT α] [DecidableLT α] [DecidableEq α] (x : α) : List α → List α
  | [] => [x]
  | y :: ys => if x < y then x :: y :: ys else if x = y then y :: ys else y :: insertSorted x ys

/-- The elements of a list in ascending order, each once. -/
def sortedSet {α : Type} [LT α] [DecidableLT α] [DecidableEq α] (xs : List α) : List α :=
  xs.foldr insertSorted []

/-! ## Tables -/

/-- A state and a symbol. -/
abbrev Table.Key := Int × String

structure Table where
  actions : List (Table.Key × Action)
  gotos : List (Table.Key × Int)
  start : Int := 0
  name : String := "<table>"
deriving DecidableEq, Repr

namespace Table

def action? (t : Table) (state : Int) (terminal : String) : Option Action :=
  t.actions.lookup (state, terminal)

def goto? (t : Table) (state : Int) (nonterminal : String) : Option Int :=
  t.gotos.lookup (state, nonterminal)

/-- The terminals that have an action in a state, in order. -/
def expected (t : Table) (state : Int) : List String :=
  sortedSet ((t.actions.filter (·.1.1 == state)).map (·.1.2))

/-- The rules by which the table reduces, in order. -/
def rules (t : Table) : List Int :=
  sortedSet (t.actions.filterMap fun
    | (_, .reduce rule) => some rule
    | _ => none)

/-- Every state that the table mentions, in order. -/
def states (t : Table) : List Int :=
  let targets := t.actions.filterMap fun
    | (_, .shift target) => some target
    | _ => none
  sortedSet (t.start :: t.actions.map (·.1.1) ++ t.gotos.map (·.1.1) ++ t.gotos.map (·.2) ++ targets)

/-- Sets an action, in the place of the one that was there. -/
def setAction (t : Table) (key : Key) (action : Action) : Table :=
  let set (e : Key × Action) := if e.1 == key then (key, action) else e
  if t.actions.any (·.1 == key) then { t with actions := t.actions.map set }
  else { t with actions := t.actions ++ [(key, action)] }

def summary (t : Table) : String :=
  let rules := ", ".intercalate (t.rules.map toString)
  "\n".intercalate
    [s!"States: {t.states.length}", s!"Actions: {t.actions.length}", s!"Gotos: {t.gotos.length}",
     "Rules: " ++ if rules = "" then "(none)" else rules]

end Table

end ShiftReduce
