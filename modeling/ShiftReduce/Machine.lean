import ShiftReduce.Rules
import ShiftReduce.Source.Stream

/-! # The shift-reduce machine

The machine looks at the next token and at the state on top of its stack, and does what its table
says: it shifts the token, reduces by a rule, accepts, or reports a syntax error. A step is a
function of the configuration, and a run repeats it until the machine halts.
-/

namespace ShiftReduce

/-- What a machine is set up with. -/
structure Machine (V : Type) where
  table : Table
  rules : Rules V
  /-- The terminals that are passed over. -/
  skip : List String := ["nl"]
  /-- Whether the steps are traced. -/
  debug : Bool := false

/-- What a machine tells while it runs. -/
inductive Note where
  | trace (text : String)
  | report (error : SyntaxError)
deriving DecidableEq, Repr

/-- A configuration. The notes are listed with the latest first. -/
structure Config (V : Type) where
  values : Stack (Symbol V)
  states : Stack Int
  stream : Stream
  accepted : Bool := false
  error : Option SyntaxError := none
  notes : List Note := []

/-- How a step ended. -/
inductive Verdict where
  | running
  | halted
  | failed (f : Failure)
deriving DecidableEq, Repr

namespace Config

variable {V : Type}

def note (c : Config V) (n : Note) : Config V := { c with notes := n :: c.notes }

/-- The reports, in order. -/
def reports (c : Config V) : List SyntaxError :=
  c.notes.reverse.filterMap fun
    | .report e => some e
    | .trace _ => none

/-- The trace, in order. -/
def trace (c : Config V) : List String :=
  c.notes.reverse.filterMap fun
    | .report _ => none
    | .trace text => some text

end Config

namespace Machine

variable {V : Type}

/-- A configuration to start from. An empty state stack gets the start state of the table. -/
def start (m : Machine V) (stream : Stream) (values : List (Symbol V) := [])
    (states : List Int := []) : Config V :=
  { values := .ofList values
    states := .ofList (if states.isEmpty then [m.table.start] else states)
    stream := stream }

/-! ## One step -/

def traced (m : Machine V) (c : Config V) (text : String) : Config V :=
  if m.debug then c.note (.trace text) else c

/-- An action as the trace shows it. No action and an action without a name look alike. -/
def actionText : Option Action → String
  | none => "-"
  | some (.unknown (.text "")) => "-"
  | some (.unknown (.number 0)) => "-"
  | some action => action.toText

def stateText (state : Option Int) : String := (state.map toString).getD emptyMark

def stepText (state : Option Int) (look : Option Token) (action : Option Action) : String :=
  let kind := (look.map Token.kind).getD "<end>"
  s!"state={stateText state} lookahead={kind} action={actionText action}"

/-- The action for the present state and the next token. -/
def actionFor (m : Machine V) (state : Option Int) (look : Option Token) : Option Action :=
  state.bind fun s => look.bind fun t => m.table.action? s t.kind

def syntaxError (m : Machine V) (c : Config V) (state : Option Int) (look : Option Token) :
    SyntaxError where
  file := c.stream.location.name
  line := c.stream.location.line
  kind := look.map Token.kind
  text := look.map Token.text
  expected := (state.map m.table.expected).getD []

/-- A refused value is reported at the place of the next token. -/
def locate (l : Location) : Failure → Failure
  | .reduction f => .reduction { f with place := some l }
  | f => f

/-- Reduces by a rule and goes where the table sends the new nonterminal. -/
def reduce (m : Machine V) (c : Config V) (id : Int) : Verdict × Config V :=
  match m.rules.lookup id with
  | none => (.failed (.config (.unregistered m.table.name [id])), c)
  | some rule =>
    match rule.reduce id c.values c.states with
    | .error f => (.failed (locate c.stream.location f), c)
    | .ok r =>
      let c := { c with values := r.values, states := r.states }
      match r.exposed with
      | none => (.failed (.config (.underflow id)), c)
      | some state =>
        match r.values.peek with
        | none => (.failed (.misuse .noSymbol), c)
        | some symbol =>
          let lhs := symbol.name
          match m.table.goto? state lhs with
          | none => (.failed (.config (.noGoto m.table.name state lhs)), c)
          | some target =>
            let c := m.traced c s!"reduce r{id} -> {lhs}, goto {target}"
            (.running, { c with states := c.states.push target })

/-- Does what the table says about the next token. -/
def act (m : Machine V) (c : Config V) (state : Option Int) (look : Option Token) :
    Verdict × Config V :=
  let action := m.actionFor state look
  let c := m.traced c (stepText state look action)
  match action, look with
  | some (.shift target), some t =>
    (.running,
      { c with
        values := c.values.push (.terminal t)
        states := c.states.push target
        stream := c.stream.next.2 })
  | some (.reduce rule), _ => m.reduce c rule
  | some .accept, _ => (.halted, { c with accepted := true })
  | some (.unknown label), _ => (.failed (.config (.unknownAction label)), c)
  | _, _ =>
    let error := m.syntaxError c state look
    (.halted, { c.note (.report error) with error := some error })

def step (m : Machine V) (c : Config V) : Verdict × Config V :=
  match c.stream.peek with
  | (.error f, stream) => (.failed f, { c with stream := stream })
  | (.ok look, stream) =>
    let c := { c with stream := stream }
    if (look.map fun t => m.skip.contains t.kind).getD false then
      (.running, { c with stream := c.stream.next.2 })
    else m.act c c.states.peek look

/-! ## Runs -/

/-- What a finished run has to say. -/
inductive Outcome (V : Type) where
  | accepted (value : Operand V)
  | rejected (error : Option SyntaxError)

/-- The outcome of a machine that has halted. An accepting machine has one value left. -/
def outcome (c : Config V) : Except Failure (Outcome V) :=
  if c.accepted then
    match c.values.items with
    | [symbol] => .ok (.accepted symbol.operand)
    | items => .error (.config (.leftOver items.length))
  else .ok (.rejected c.error)

/-- Steps until the machine halts or fails, at most `fuel` times. -/
def run (m : Machine V) : (fuel : Nat) → Config V → Option (Except Failure (Outcome V) × Config V)
  | 0, _ => none
  | fuel + 1, c =>
    match m.step c with
    | (.running, c) => m.run fuel c
    | (.halted, c) => some (outcome c, c)
    | (.failed f, c) => some (.error f, c)

/-- Checks the rules against the table, then runs. -/
def parse (m : Machine V) (fuel : Nat) (c : Config V) :
    Option (Except Failure (Outcome V) × Config V) :=
  match m.rules.validate m.table with
  | .error f => some (.error f, c)
  | .ok () => m.run fuel c

end Machine

end ShiftReduce
