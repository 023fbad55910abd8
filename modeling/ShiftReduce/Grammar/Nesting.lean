import ShiftReduce.Grammar.Literal

/-! # The nesting grammar

A sentence is a number of identifiers, then as many integers:

    S -> ε | ident S integer

Its value is a text that shows which identifier and integer belong together.
-/

namespace ShiftReduce.Nesting

def tableText : String :=
  "0 ident s2\n" ++
  "0 eof r1\n" ++
  "0 S 1\n" ++
  "1 eof acc\n" ++
  "2 ident s2\n" ++
  "2 integer r1\n" ++
  "2 S 3\n" ++
  "3 integer s4\n" ++
  "4 integer r2\n" ++
  "4 eof r2\n"

/-- The value of the empty sentence. -/
def empty : Value := .text "()"

/-- The value of a sentence within a pair. -/
def nest (first inner last : Value) : Value :=
  .text s!"({first.plain},{last.plain}) -> {inner.plain}"

def rules : Rules Value :=
  ⟨[(1, .ofValues "S" 0 fun _ => .ok empty),
    (2, .ofValues "S" 3 fun
      | [first, inner, last] => .ok (nest first inner last)
      | _ => Access.refused "expected three operands")]⟩

/-- A value is printed as it is. -/
def render (v : Value) : Except Failure Value := .ok v

end ShiftReduce.Nesting
