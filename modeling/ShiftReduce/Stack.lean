/-! # Stacks -/

namespace ShiftReduce

/-- A stack; its top comes first in `items`. -/
structure Stack (α : Type) where
  items : List α
deriving DecidableEq, Repr

namespace Stack

variable {α : Type}

def empty : Stack α := ⟨[]⟩

/-- The stack of a list that names the bottom first. -/
def ofList (xs : List α) : Stack α := ⟨xs.reverse⟩

/-- The items from the bottom to the top. -/
def toList (s : Stack α) : List α := s.items.reverse

def size (s : Stack α) : Nat := s.items.length

def push (s : Stack α) (x : α) : Stack α := ⟨x :: s.items⟩

/-- The item on top, `none` if there is none. -/
def peek (s : Stack α) : Option α := s.items.head?

/-- The stack without its `n` topmost items. -/
def drop (s : Stack α) (n : Nat) : Stack α := ⟨s.items.drop n⟩

def pop (s : Stack α) : Option α × Stack α := (s.peek, s.drop 1)

/-- The `n` topmost items, the lowest of them first; all of them if there are no more. -/
def top (s : Stack α) (n : Nat) : List α := (s.items.take n).reverse

@[simp]
theorem toList_ofList (xs : List α) : (ofList xs).toList = xs := List.reverse_reverse xs

@[simp]
theorem toList_push (s : Stack α) (x : α) : (s.push x).toList = s.toList ++ [x] := by
  simp [push, toList]

@[simp]
theorem toList_drop_append_top (s : Stack α) (n : Nat) :
    (s.drop n).toList ++ s.top n = s.toList := by
  simp only [toList, drop, top, ← List.reverse_append, List.take_append_drop]

@[simp]
theorem length_toList (s : Stack α) : s.toList.length = s.size := List.length_reverse

/-- The displayed form of a stack. -/
def display (showItem : α → String) (s : Stack α) : String :=
  "Stack([" ++ ", ".intercalate (s.toList.map showItem) ++ "])"

end Stack

/-- What messages show in place of an item of an empty stack. -/
def emptyMark : String := "EMPTY"

end ShiftReduce
