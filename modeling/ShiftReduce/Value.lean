import ShiftReduce.Number.Shortest
import ShiftReduce.Symbol

/-! # Values of the bundled grammars -/

namespace ShiftReduce

inductive Value where
  | none
  | bool (b : Bool)
  | int (n : Int)
  | real (x : Number.Binary64)
  | text (s : String)
  /-- A name whose meaning is looked up later. -/
  | ref (name : Value)
  | list (items : List Value)
  | tuple (items : List Value)
  /-- Entries in the order in which their keys were added. -/
  | dict (entries : List (Value × Value))
deriving Inhabited, Repr

namespace Value

/-- The name of a value's kind, as messages give it. -/
def kind : Value → String
  | .none => "NoneType"
  | .bool _ => "bool"
  | .int _ => "int"
  | .real _ => "float"
  | .text _ => "str"
  | .ref _ => "Ref"
  | .list _ => "list"
  | .tuple _ => "tuple"
  | .dict _ => "dict"

/-! ## The displayed form -/

/-- Items between brackets; a single item of a tuple is followed by a comma. -/
def tupleText : List String → String
  | [x] => "(" ++ x ++ ",)"
  | xs => "(" ++ ", ".intercalate xs ++ ")"

mutual

/-- The displayed form of a value. -/
def display : Value → String
  | .none => "None"
  | .bool b => if b then "True" else "False"
  | .int n => toString n
  | .real x => x.toText
  | .text s => Text.display s
  | .ref name => "Ref(name=" ++ display name ++ ")"
  | .list items => "[" ++ ", ".intercalate (displayItems items) ++ "]"
  | .tuple items => tupleText (displayItems items)
  | .dict entries => "\x7b" ++ ", ".intercalate (displayEntries entries) ++ "\x7d"

def displayItems : List Value → List String
  | [] => []
  | v :: vs => display v :: displayItems vs

def displayEntries : List (Value × Value) → List String
  | [] => []
  | (k, v) :: es => (display k ++ ": " ++ display v) :: displayEntries es

end

/-- A text as it is, any other value in its displayed form. -/
def plain : Value → String
  | .text s => s
  | v => v.display

def ofOperand : Operand Value → Value
  | .text s => .text s
  | .value v => v

/-! ## Keys -/

/-- The number that a value stands for, as `n * 2 ^ e`. -/
def dyadic? : Value → Option (Int × Int)
  | .bool b => some (if b then 1 else 0, 0)
  | .int n => some (n, 0)
  | .real (.finite negative m e) => some (if negative then -(m : Int) else m, e)
  | _ => Option.none

def sameNumber (a b : Int × Int) : Bool :=
  a.1 * Number.Binary64.twoTo (a.2 - b.2).toNat == b.1 * Number.Binary64.twoTo (b.2 - a.2).toNat

mutual

/-- Whether two values are the same key. Numbers of different kinds are, if they are equal. -/
def sameKey : Value → Value → Bool
  | .none, .none => true
  | .text a, .text b => a == b
  | .ref a, .ref b => sameKey a b
  | .tuple xs, .tuple ys => sameKeys xs ys
  | .real (.infinite a), .real (.infinite b) => a == b
  | a, b =>
    match a.dyadic?, b.dyadic? with
    | some x, some y => sameNumber x y
    | _, _ => false

def sameKeys : List Value → List Value → Bool
  | [], [] => true
  | x :: xs, y :: ys => sameKey x y && sameKeys xs ys
  | _, _ => false

end

@[simp]
theorem sameKey_text (a b : String) : sameKey (.text a) (.text b) = (a == b) := by
  simp [sameKey]

theorem sameKey_text_iff (v : Value) (s : String) : v.sameKey (.text s) = true ↔ v = .text s := by
  cases v with
  | real x => cases x <;> simp [sameKey, dyadic?]
  | _ => simp [sameKey, dyadic?]

mutual

/-- The kind of what keeps a value from being a key. A list is none, nor is what holds one. -/
def unfit? : Value → Option String
  | .list items => some (Value.list items).kind
  | .dict entries => some (Value.dict entries).kind
  | .tuple items => unfitItem? items
  | .ref name => unfit? name
  | _ => Option.none

def unfitItem? : List Value → Option String
  | [] => Option.none
  | v :: vs => (unfit? v).or (unfitItem? vs)

end

end Value

end ShiftReduce
