import ShiftReduce.Value

/-! # Entries of a dictionary

Every key stands once, and the keys keep the order in which they were added. A key that is given a
new value stays where and as it is.
-/

namespace ShiftReduce

abbrev Entries := List (Value × Value)

namespace Entries

def get? (es : Entries) (key : Value) : Option Value :=
  (es.find? fun e => e.1.sameKey key).map Prod.snd

/-- Gives a key a value, in its place or at the end. -/
def insert (es : Entries) (key v : Value) : Entries :=
  match es with
  | [] => [(key, v)]
  | e :: es => if e.1.sameKey key then (e.1, v) :: es else e :: insert es key v

/-- Takes a key away. -/
def erase (es : Entries) (key : Value) : Entries := es.filter fun e => !e.1.sameKey key

/-- The entries of a list that may give a key more than once. -/
def ofList (es : List (Value × Value)) : Entries :=
  es.foldl (fun d e => insert d e.1 e.2) []

/-! ## What stands under a name -/

@[simp]
theorem get?_cons (e : Value × Value) (es : Entries) (key : Value) :
    get? (e :: es) key = if e.1.sameKey key then some e.2 else get? es key := by
  unfold get?
  rw [List.find?_cons]
  cases e.1.sameKey key <;> rfl

@[simp]
theorem get?_insert_text (es : Entries) (a b : String) (v : Value) :
    (es.insert (.text a) v).get? (.text b) = if a = b then some v else es.get? (.text b) := by
  induction es with
  | nil => simp [insert]
  | cons e es ih =>
    unfold insert
    split
    · rename_i h
      rw [Value.sameKey_text_iff] at h
      by_cases hab : a = b <;> simp [h, hab]
    · rename_i h
      rw [Value.sameKey_text_iff] at h
      rw [get?_cons, get?_cons, ih]
      by_cases hb : e.1 = .text b
      · have hab : a ≠ b := fun hab => h (hab ▸ hb)
        simp [hab]
      · simp [Value.sameKey_text_iff, hb]

@[simp]
theorem get?_erase_text (es : Entries) (a b : String) :
    (es.erase (.text a)).get? (.text b) = if a = b then none else es.get? (.text b) := by
  induction es with
  | nil => simp [erase, get?]
  | cons e es ih =>
    unfold erase at ih ⊢
    rw [List.filter_cons, get?_cons]
    by_cases ha : e.1 = .text a
    · rw [if_neg (by simp [ha]), ih, ha]
      by_cases hab : a = b <;> simp [hab]
    · rw [if_pos (by simpa [← Bool.not_eq_true, Value.sameKey_text_iff] using ha), get?_cons, ih]
      by_cases hb : e.1 = .text b
      · have hab : a ≠ b := fun hab => ha (hab ▸ hb)
        simp [hab]
      · simp [Value.sameKey_text_iff, hb]

end Entries

end ShiftReduce
