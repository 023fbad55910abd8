import ShiftReduce.Entries
import ShiftReduce.Rules

/-! # Taking values apart

A rule can meet values of any kind. Each way to take one apart says for which kinds it works, and why
it is refused for the others.
-/

namespace ShiftReduce.Access

def refused {α : Type} (reason : String) : Except Refusal α := .error (.operands reason)

def misused {α : Type} (m : Misuse) : Except Refusal α := .error (.failure (.misuse m))

/-! ## Places -/

/-- The place that an index means in a row of `size` items. A negative one counts from the end. -/
def place? (size : Nat) (i : Int) : Option Nat :=
  let k := if i < 0 then i + size else i
  if 0 ≤ k ∧ k < size then some k.toNat else none

def itemAt (items : List Value) (i : Int) : Except Refusal Value :=
  match (place? items.length i).bind fun k => items[k]? with
  | some v => .ok v
  | none => misused .noItem

/-- The item of a row or the character of a text at a place, or what a dictionary has under it. -/
def item (v : Value) (i : Int) : Except Refusal Value :=
  match v with
  | .list items | .tuple items => itemAt items i
  | .text s => itemAt (s.toList.map fun c => .text c.toString) i
  | .dict es =>
    match Entries.get? es (.int i) with
    | some w => .ok w
    | none => .error (.failure (.unknownKey (toString i)))
  | v => refused s!"'{v.kind}' object is not subscriptable"

/-- How many items a value has. -/
def size? : Value → Option Nat
  | .text s => some s.length
  | .list items | .tuple items => some items.length
  | .dict es => some es.length
  | _ => none

/-- The items of a row, or the keys of a dictionary. -/
def items : Value → List Value
  | .list items | .tuple items => items
  | .dict es => es.map Prod.fst
  | _ => []

/-- Three items, and no more. -/
def three (items : List Value) : Except Refusal (Value × Value × Value) :=
  match items with
  | [a, b, c] => .ok (a, b, c)
  | _ =>
    if items.length < 3 then
      refused s!"not enough values to unpack (expected 3, got {items.length})"
    else refused "too many values to unpack (expected 3)"

/-! ## Keys -/

/-- A value that is to be a key. -/
def key (v : Value) : Except Refusal Value :=
  match v.unfit? with
  | some kind => refused s!"unhashable type: '{kind}'"
  | none => .ok v

/-- What a value has under a key, and the key itself where it has nothing. -/
def lookup (v name : Value) : Except Refusal Value :=
  match v with
  | .dict es => (key name).map fun k => (Entries.get? es k).getD k
  | _ => misused .noSettings

/-- The index that a value stands for. -/
def index? : Value → Option Int
  | .int n => some n
  | .bool b => some (if b then 1 else 0)
  | _ => none

/-- Whether an index has no more than 64 bits. Beyond that no row is asked what it has there. -/
def isPlace (i : Int) : Bool := -9223372036854775808 ≤ i && i ≤ 9223372036854775807

def unassignable (v : Value) : Except Refusal Value :=
  refused s!"'{v.kind}' object does not support item assignment"

/-- Puts a value under a key, or at a place in a list. -/
def put (v name w : Value) : Except Refusal Value :=
  match v with
  | .dict es => (key name).map fun k => .dict (Entries.insert es k w)
  | .list items =>
    match index? name with
    | some i =>
      match place? items.length i with
      | some k => .ok (.list (items.set k w))
      | none => misused .noItem
    | none => refused s!"list indices must be integers or slices, not {name.kind}"
  | .text _ | .ref _ | .tuple _ =>
    if (index? name).all isPlace then unassignable v else misused .noItem
  | v => unassignable v

/-- Takes a key away. An empty dictionary takes anything for a key, and no other value than a
dictionary has keys to take away. -/
def remove (v : Value) (name : Except Refusal Value) : Except Refusal Value :=
  match v with
  | .dict es => do
    let name ← name
    if es.isEmpty then return .dict []
    return .dict (Entries.erase es (← key name))
  | .list _ => do
    let _ ← name
    refused "pop expected at most 1 argument, got 2"
  | _ => misused .noSettings

end ShiftReduce.Access
