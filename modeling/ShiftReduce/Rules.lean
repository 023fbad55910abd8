import ShiftReduce.Failure
import ShiftReduce.Symbol

/-! # Reduction rules

A rule takes symbols and states off their stacks and puts a nonterminal on the value stack. A
production does so by its arity: it takes that many of both, and its value is a function of what it
took. A custom rule may do with the stacks what it likes.
-/

namespace ShiftReduce

/-- Why a production has no value: the operands are refused, or something else went wrong. -/
inductive Refusal where
  | operands (reason : String)
  | failure (f : Failure)
deriving DecidableEq, Repr

/-- The stacks after a reduction, and the state that it laid bare. Without a state the stacks were
too short. -/
structure Reduced (V : Type) where
  values : Stack (Symbol V)
  states : Stack Int
  exposed : Option Int

inductive Rule (V : Type) where
  | production (lhs : String) (arity : Nat) (eval : List (Operand V) → Except Refusal V)
  | custom (lhs : Option String)
      (act : Stack (Symbol V) → Stack Int → Except Failure (Reduced V))

namespace Rule

variable {V : Type}

def lhs? : Rule V → Option String
  | .production lhs _ _ => some lhs
  | .custom lhs _ => lhs

/-- Applies the rule with number `id`. Nothing is taken off before the value is known. -/
def reduce (id : Int) (r : Rule V) (values : Stack (Symbol V)) (states : Stack Int) :
    Except Failure (Reduced V) :=
  match r with
  | .custom _ act => act values states
  | .production lhs arity eval =>
    if values.size < arity ∨ states.size < arity + 1 then .ok ⟨values, states, none⟩
    else
      match eval ((values.top arity).map Symbol.operand) with
      | .error (.operands reason) => .error (.reduction ⟨id, lhs, reason, none⟩)
      | .error (.failure f) => .error f
      | .ok v =>
        let states := states.drop arity
        .ok ⟨(values.drop arity).push (.nonterminal lhs v), states, states.peek⟩

end Rule

/-- Rules by their numbers, in the order in which they were registered. -/
structure Rules (V : Type) where
  entries : List (Int × Rule V)

namespace Rules

variable {V : Type}

def empty : Rules V := ⟨[]⟩

def lookup (rs : Rules V) (id : Int) : Option (Rule V) := rs.entries.lookup id

def contains (rs : Rules V) (id : Int) : Bool := (rs.lookup id).isSome

def lhsOf (rs : Rules V) (id : Int) : Option String := (rs.lookup id).bind Rule.lhs?

def size (rs : Rules V) : Nat := rs.entries.length

/-- Adds a rule under a number that is free. -/
def register (rs : Rules V) (id : Int) (r : Rule V) : Except Failure (Rules V) :=
  if rs.contains id then .error (.config (.registeredTwice id))
  else .ok ⟨rs.entries ++ [(id, r)]⟩

/-- Adds a production. -/
def define (rs : Rules V) (id : Int) (lhs : String) (arity : Int)
    (eval : List (Operand V) → Except Refusal V) : Except Failure (Rules V) :=
  if arity < 0 then .error (.config (.negativeArity id arity))
  else rs.register id (.production lhs arity.toNat eval)

/-- The rules that a table uses and that are not there. -/
def missing (rs : Rules V) (t : Table) : List Int := t.rules.filter fun id => !rs.contains id

/-- Checks that every rule a table uses is there. -/
def validate (rs : Rules V) (t : Table) : Except Failure Unit :=
  let missing := rs.missing t
  if missing.isEmpty then .ok () else .error (.config (.unregistered t.name missing))

end Rules

end ShiftReduce
