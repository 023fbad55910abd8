import ShiftReduce.Command.Run
import ShiftReduce.Proofs.Tracing

/-! # A trace is no output

Tasks are alike if they end alike and print alike, whatever else they complain about. A command that
traces what it does is alike to one that does not.
-/

namespace ShiftReduce.Command

variable {α β : Type}

/-- Two pieces of a command end alike and print alike, from the same output on. -/
def Alike (x y : Task α) : Prop :=
  ∀ t u : Transcript, t.out = u.out →
    (x.run.run t).1 = (y.run.run u).1 ∧ (x.run.run t).2.out = (y.run.run u).2.out

theorem run_bind (x : Task α) (f : α → Task β) (t : Transcript) :
    (x >>= f).run.run t =
      match x.run.run t with
      | (.ok a, t) => (f a).run.run t
      | (.error e, t) => (.error e, t) := by
  rw [ExceptT.run_bind, StateT.run_bind]
  change (match x.run.run t with | (a, s) => _) = _
  rcases x.run.run t with ⟨e | a, t'⟩ <;> rfl

theorem Alike.bind {x y : Task α} {f g : α → Task β} (h : Alike x y)
    (hf : ∀ a, Alike (f a) (g a)) : Alike (x >>= f) (y >>= g) := by
  intro t u htu
  obtain ⟨hr, ho⟩ := h t u htu
  rw [run_bind, run_bind]
  rcases hx : x.run.run t with ⟨r, t'⟩
  rcases hy : y.run.run u with ⟨s, u'⟩
  rw [hx, hy] at hr ho
  obtain rfl : r = s := hr
  cases r with
  | ok a => exact hf a t' u' ho
  | error e => exact ⟨rfl, ho⟩

theorem Alike.trans {x y z : Task α} (h : Alike x y) (h' : Alike y z) : Alike x z := by
  intro t u htu
  obtain ⟨hr, ho⟩ := h t t rfl
  obtain ⟨hr', ho'⟩ := h' t u htu
  exact ⟨hr.trans hr', ho.trans ho'⟩

theorem Alike.symm {x y : Task α} (h : Alike x y) : Alike y x := by
  intro t u htu
  obtain ⟨hr, ho⟩ := h u t htu.symm
  exact ⟨hr.symm, ho.symm⟩

end ShiftReduce.Command
