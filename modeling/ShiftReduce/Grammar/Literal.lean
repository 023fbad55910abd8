import ShiftReduce.Grammar.Access
import ShiftReduce.Lex.Quoted
import ShiftReduce.Number.Decimal

/-! # Literals

The values that literals stand for. A literal is a text, as a rule; a number stands for itself, and
a row of texts can be a string.
-/

namespace ShiftReduce

namespace Literal

open Access

/-! ## Numbers -/

/-- A number without its fraction. -/
def whole : Number.Binary64 → Except Refusal Value
  | .nan => refused "cannot convert float NaN to integer"
  | .infinite _ => misused .tooLarge
  | .finite negative m e =>
    let n : Int := m * Number.Binary64.twoTo e.toNat / Number.Binary64.twoTo (-e).toNat
    .ok (.int (if negative then -n else n))

def integer : Value → Except Refusal Value
  | .text s =>
    match Number.readInteger s with
    | .ok n => .ok (.int n)
    | .error f => refused f.message
  | .int n => .ok (.int n)
  | .bool b => .ok (.int (if b then 1 else 0))
  | .real x => whole x
  | v =>
    refused s!"int() argument must be a string, a bytes-like object or a real number, not '{v.kind}'"

/-- The number nearest to an integer, unless it is out of range. -/
def nearest (n : Int) : Except Refusal Value :=
  match Number.Binary64.ofDecimal (n < 0) n.natAbs 0 with
  | .infinite _ => misused .tooLarge
  | x => .ok (.real x)

def real : Value → Except Refusal Value
  | .text s =>
    match Number.readReal s with
    | .ok x => .ok (.real x)
    | .error f => refused f.message
  | .int n => nearest n
  | .bool b => nearest (if b then 1 else 0)
  | .real x => .ok (.real x)
  | v => refused s!"float() argument must be a string or a real number, not '{v.kind}'"

/-! ## Strings -/

def notLiteral (v : Value) : Except Refusal Value :=
  refused ("not a string literal: " ++ v.display)

/-- The texts that a row may open and close with. -/
def quotes : List String := ["", "\"", "'", "\"'"]

/-- What an item stands for behind a backslash. -/
def escapedItem : Value → Value
  | .text s =>
    match s.toList with
    | [c] => .text (Quoted.escaped c).toString
    | _ => .text s
  | v => v

/-- The content of a row of items. A row has no escapes with a code. -/
def decodeItems : List Value → Except Refusal (List Value)
  | .text "\\" :: .text "x" :: _ => refused "expected string or buffer"
  | .text "\\" :: v :: vs => do
    let v ← key v
    return escapedItem v :: (← decodeItems vs)
  | v :: vs => return v :: (← decodeItems vs)
  | [] => return []

/-- Puts texts together, the first of them being item number `n`. -/
def joinFrom (n : Nat) : List Value → Except Refusal String
  | [] => return ""
  | .text s :: vs => return s ++ (← joinFrom (n + 1) vs)
  | v :: _ => refused s!"sequence item {n}: expected str instance, {v.kind} found"

/-- What stands between the first and the last item. -/
def between : Value → Except Refusal Value
  | .list vs | .tuple vs => do
    let content ← decodeItems vs.tail.dropLast
    return .text (← joinFrom 0 content)
  | _ => refused "unhashable type: 'slice'"

/-- A string that is given item by item. -/
def sequence (v : Value) : Except Refusal Value := do
  match size? v with
  | none => refused s!"object of type '{v.kind}' has no len()"
  | some n =>
    if n < 2 then notLiteral v
    else
      match ← item v 0 with
      | .text q =>
        if !quotes.contains q then notLiteral v
        else
          match ← item v (-1) with
          | .text r => if r = q then between v else notLiteral v
          | _ => notLiteral v
      | w => refused s!"'in <string>' requires string as left operand, not {w.kind}"

def string : Value → Except Refusal Value
  | .text s =>
    match Quoted.content s with
    | .ok c => .ok (.text c)
    | .error f => refused f.message
  | v => sequence v

/-! ## Names -/

/-- A name that is looked up later. -/
def reference (v : Value) : Except Refusal Value := .ok (.ref v)

end Literal

/-- A production over the values of its operands. -/
def Rule.ofValues (lhs : String) (arity : Nat) (eval : List Value → Except Refusal Value) :
    Rule Value :=
  .production lhs arity fun operands => eval (operands.map Value.ofOperand)

/-- A production with one operand. -/
def Rule.ofValue (lhs : String) (eval : Value → Except Refusal Value) : Rule Value :=
  .ofValues lhs 1 fun
    | [v] => eval v
    | _ => Access.refused "expected one operand"

end ShiftReduce
