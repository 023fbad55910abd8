import ShiftReduce.Stack
import ShiftReduce.Text.Display
import ShiftReduce.Token

/-! # Grammar symbols

A symbol on the value stack is a token that was shifted, or a nonterminal with the value that a
reduction gave it. The values can be of any type.
-/

namespace ShiftReduce

inductive Symbol (V : Type) where
  | terminal (token : Token)
  | nonterminal (name : String) (value : V)
deriving DecidableEq, Repr

/-- What a rule sees of a symbol: the text of a token, or the value of a nonterminal. -/
inductive Operand (V : Type) where
  | text (s : String)
  | value (v : V)
deriving DecidableEq, Repr

namespace Symbol

variable {V : Type}

def name : Symbol V → String
  | .terminal t => t.kind
  | .nonterminal n _ => n

def operand : Symbol V → Operand V
  | .terminal t => .text t.text
  | .nonterminal _ v => .value v

def token? : Symbol V → Option Token
  | .terminal t => some t
  | .nonterminal _ _ => none

def display (showValue : V → String) (s : Symbol V) : String :=
  let shown :=
    match s.operand with
    | .text t => Text.display t
    | .value v => showValue v
  s.name ++ "(" ++ shown ++ ")"

end Symbol

end ShiftReduce
