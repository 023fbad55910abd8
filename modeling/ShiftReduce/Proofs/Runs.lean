import ShiftReduce.Proofs.Steps

/-! # Runs

A machine can be stepped any number of times, also after it has halted or failed. A run stops at the
first step that does not go on, and more fuel does not change how it ended.
-/

namespace ShiftReduce

namespace Machine

variable {V : Type} {m : Machine V}

/-! ## Any number of steps -/

def after (m : Machine V) : Nat → Config V → Config V
  | 0, c => c
  | n + 1, c => m.after n (m.step c).2

/-- The verdict of the step that follows `n` others. -/
def verdictAt (m : Machine V) (n : Nat) (c : Config V) : Verdict := (m.step (m.after n c)).1

@[simp]
theorem after_succ (m : Machine V) (n : Nat) (c : Config V) :
    m.after (n + 1) c = (m.step (m.after n c)).2 := by
  induction n generalizing c with
  | zero => rfl
  | succ n ih => exact ih (m.step c).2

theorem after_invariant {I : Config V → Prop} {P : Verdict → Prop}
    (hstep : ∀ c, I c → P (m.step c).1 → I (m.step c).2) {c : Config V} (hc : I c) {n : Nat}
    (hv : ∀ k < n, P (m.verdictAt k c)) : I (m.after n c) := by
  induction n with
  | zero => exact hc
  | succ n ih =>
    simpa using hstep _ (ih fun k hk => hv k (by omega)) (hv n (by omega))

/-! ## Runs that end -/

/-- A run from `c` ends with the result `r`, and leaves `d`. -/
def Ends (m : Machine V) (c : Config V) (r : Except Failure (Outcome V)) (d : Config V) : Prop :=
  ∃ fuel, m.run fuel c = some (r, d)

theorem run_succ (m : Machine V) (fuel : Nat) (c : Config V) :
    m.run (fuel + 1) c =
      match m.step c with
      | (.running, d) => m.run fuel d
      | (.halted, d) => some (outcome d, d)
      | (.failed f, d) => some (.error f, d) := by
  rcases hs : m.step c with ⟨_ | _ | _, d⟩ <;> simp only [run, hs]

theorem run_add {fuel : Nat} {c d : Config V} {r : Except Failure (Outcome V)}
    (h : m.run fuel c = some (r, d)) (extra : Nat) : m.run (fuel + extra) c = some (r, d) := by
  induction fuel generalizing c with
  | zero => simp [run] at h
  | succ fuel ih =>
    rw [Nat.add_right_comm, run_succ]
    rw [run_succ] at h
    rcases hs : m.step c with ⟨_ | _ | f, e⟩
    · rw [hs] at h
      exact ih h
    · rw [hs] at h
      exact h
    · rw [hs] at h
      exact h

theorem Ends.unique {c d d' : Config V} {r r' : Except Failure (Outcome V)} (h : m.Ends c r d)
    (h' : m.Ends c r' d') : r = r' ∧ d = d' := by
  obtain ⟨fuel, h⟩ := h
  obtain ⟨fuel', h'⟩ := h'
  have h₁ := run_add h fuel'
  have h₂ := run_add h' fuel
  rw [Nat.add_comm, h₁, Option.some.injEq, Prod.mk.injEq] at h₂
  exact h₂

theorem Ends.of_running {c d e : Config V} {r : Except Failure (Outcome V)}
    (hs : m.step c = (.running, d)) (h : m.Ends d r e) : m.Ends c r e := by
  obtain ⟨fuel, h⟩ := h
  exact ⟨fuel + 1, by rw [run_succ, hs]; exact h⟩

theorem Ends.of_halted {c d : Config V} (hs : m.step c = (.halted, d)) :
    m.Ends c (outcome d) d := ⟨1, by rw [run_succ, hs]⟩

theorem Ends.of_failed {c d : Config V} {f : Failure} (hs : m.step c = (.failed f, d)) :
    m.Ends c (.error f) d := ⟨1, by rw [run_succ, hs]⟩

/-- The rules are checked, and then a run ends. -/
def Parses (m : Machine V) (c : Config V) (r : Except Failure (Outcome V)) (d : Config V) : Prop :=
  ∃ fuel, ∀ more, m.parse (fuel + more) c = some (r, d)

theorem Ends.parses {c d : Config V} {r : Except Failure (Outcome V)} (h : m.Ends c r d)
    (hv : m.rules.validate m.table = .ok ()) : m.Parses c r d := by
  obtain ⟨fuel, h⟩ := h
  refine ⟨fuel, fun more => ?_⟩
  rw [parse, hv]
  exact run_add h more

theorem Parses.ends {c d : Config V} {r : Except Failure (Outcome V)} (h : m.Parses c r d)
    (hv : m.rules.validate m.table = .ok ()) : m.Ends c r d := by
  obtain ⟨fuel, h⟩ := h
  have hrun := h 0
  rw [parse, hv] at hrun
  exact ⟨fuel, hrun⟩

/-- The steps of a run that ends: all but the last go on, and the last one says how it ended. -/
theorem run_last {fuel : Nat} {c d : Config V} {r : Except Failure (Outcome V)}
    (h : m.run fuel c = some (r, d)) :
    ∃ n, (∀ k < n, m.verdictAt k c = .running) ∧ d = m.after (n + 1) c ∧
      ((m.verdictAt n c = .halted ∧ r = outcome d) ∨
        ∃ f, m.verdictAt n c = .failed f ∧ r = .error f) := by
  induction fuel generalizing c with
  | zero => simp [run] at h
  | succ fuel ih =>
    rw [run_succ] at h
    rcases hs : m.step c with ⟨_ | _ | f, e⟩
    · rw [hs] at h
      obtain ⟨n, hrun, hd, hlast⟩ := ih h
      have hafter : ∀ k, m.after (k + 1) c = m.after k e := fun k => by rw [after, hs]
      refine ⟨n + 1, ?_, by rw [hafter, hd], ?_⟩
      · intro k hk
        cases k with
        | zero => simp [verdictAt, after, hs]
        | succ k => rw [verdictAt, hafter]; exact hrun k (by omega)
      · rw [verdictAt, hafter]
        exact hlast
    · rw [hs, Option.some.injEq, Prod.mk.injEq] at h
      obtain ⟨rfl, rfl⟩ := h
      exact ⟨0, by simp, by simp [after, hs], Or.inl ⟨by simp [verdictAt, after, hs], rfl⟩⟩
    · rw [hs, Option.some.injEq, Prod.mk.injEq] at h
      obtain ⟨rfl, rfl⟩ := h
      exact ⟨0, by simp, by simp [after, hs], Or.inr ⟨f, by simp [verdictAt, after, hs], rfl⟩⟩

theorem run_halts {fuel : Nat} {c d : Config V} {o : Outcome V}
    (h : m.run fuel c = some (.ok o, d)) :
    ∃ n, (∀ k < n, m.verdictAt k c = .running) ∧ m.verdictAt n c = .halted ∧
      d = m.after (n + 1) c ∧ outcome d = .ok o := by
  obtain ⟨n, hrun, hd, ⟨hhalt, ho⟩ | ⟨f, -, hf⟩⟩ := run_last h
  · exact ⟨n, hrun, hhalt, hd, ho.symm⟩
  · cases hf

theorem effect_at (hr : m.rules.AllProductions) {n : Nat} {c : Config V} {v : Verdict}
    (hv : m.verdictAt n c = v) : Effect m (m.after n c) v (m.after (n + 1) c) := by
  rw [after_succ, ← hv]
  exact step_effect hr (m.after n c)

theorem Effect.accepted {c d : Config V} (he : Effect m c .running d) :
    d.accepted = c.accepted := by
  cases he with
  | skip => rfl
  | shift => rfl
  | reduce => rfl

theorem after_accepted (hr : m.rules.AllProductions) {s : Stream} {n : Nat}
    (hrun : ∀ k < n, m.verdictAt k (m.start s) = .running) :
    (m.after n (m.start s)).accepted = false := by
  refine after_invariant (I := fun c => c.accepted = false) (P := fun v => v = .running) ?_ rfl hrun
  intro c hc hv
  have he := step_effect hr c
  rw [hv] at he
  rw [he.accepted, hc]

theorem run_accepts (hr : m.rules.AllProductions) {s : Stream} {fuel : Nat} {d : Config V}
    {v : Operand V} (h : m.run fuel (m.start s) = some (.ok (.accepted v), d)) :
    ∃ n t p r, (∀ k < n, m.verdictAt k (m.start s) = .running) ∧
      (m.after n (m.start s)).stream.peek = (.ok (some t), r) ∧
      (m.after n (m.start s)).states.peek = some p ∧ m.table.action? p t.kind = some .accept ∧
      d.values = (m.after n (m.start s)).values ∧ d.states = (m.after n (m.start s)).states ∧
      d.stream = r ∧ ∃ x, d.values.items = [x] ∧ v = x.operand := by
  obtain ⟨n, hrun, hhalt, hd, ho⟩ := run_halts h
  obtain ⟨hacc, hx⟩ : d.accepted = true ∧ ∃ x, d.values.items = [x] ∧ v = x.operand := by
    unfold outcome at ho
    split at ho
    · next hacc =>
      split at ho
      · next x hx =>
        simp only [Except.ok.injEq, Outcome.accepted.injEq] at ho
        exact ⟨hacc, x, hx, ho.symm⟩
      · simp at ho
    · simp at ho
  have hbefore := after_accepted hr hrun
  have he := effect_at hr hhalt
  rw [← hd] at he
  refine ⟨n, ?_⟩
  generalize m.after n (m.start s) = c at he hbefore
  cases he with
  | accept hp hk hs ha hn => exact ⟨_, _, _, hrun, hp, hs, ha, rfl, rfl, rfl, hx⟩
  | reject hp hk ha he hn =>
    rw [hbefore] at hacc
    simp at hacc

theorem run_rejects (hr : m.rules.AllProductions) {s : Stream} {fuel : Nat} {d : Config V}
    {o : Option SyntaxError} (h : m.run fuel (m.start s) = some (.ok (.rejected o), d)) :
    ∃ n look r, (∀ k < n, m.verdictAt k (m.start s) = .running) ∧
      (m.after n (m.start s)).stream.peek = (.ok look, r) ∧
      m.actionFor (m.after n (m.start s)).states.peek look = none ∧ d.stream = r ∧
      o = some (m.syntaxError { m.after n (m.start s) with stream := r }
        (m.after n (m.start s)).states.peek look) := by
  obtain ⟨n, hrun, hhalt, hd, ho⟩ := run_halts h
  obtain ⟨hacc, hrej⟩ : d.accepted = false ∧ o = d.error := by
    unfold outcome at ho
    split at ho
    · split at ho <;> simp at ho
    · next hacc =>
      simp only [Except.ok.injEq, Outcome.rejected.injEq] at ho
      exact ⟨by simpa using hacc, ho.symm⟩
  have he := effect_at hr hhalt
  rw [← hd] at he
  refine ⟨n, ?_⟩
  generalize m.after n (m.start s) = c at he
  cases he with
  | accept hp hk hs ha hn => simp at hacc
  | reject hp hk ha he hn => exact ⟨_, _, hrun, hp, ha, rfl, he ▸ hrej⟩

/-! ## Tokens that count -/

/-- The tokens that are not passed over. -/
def unskipped (m : Machine V) (ts : List Token) : List Token :=
  ts.filter fun t => !m.skip.contains t.kind

@[simp]
theorem unskipped_nil (m : Machine V) : m.unskipped [] = [] := rfl

@[simp]
theorem unskipped_append (m : Machine V) (ts us : List Token) :
    m.unskipped (ts ++ us) = m.unskipped ts ++ m.unskipped us :=
  List.filter_append ts us

theorem unskipped_cons_of_skip {t : Token} (hk : m.skip.contains t.kind = true)
    (ts : List Token) : m.unskipped (t :: ts) = m.unskipped ts :=
  List.filter_cons_of_neg (by rw [hk]; decide)

theorem unskipped_cons_of_not_skip {t : Token} (hk : m.skip.contains t.kind = false)
    (ts : List Token) : m.unskipped (t :: ts) = t :: m.unskipped ts :=
  List.filter_cons_of_pos (by rw [hk]; rfl)

/-! ## Steps that go on -/

/-- Steps that all go on lead from one configuration to the other. -/
inductive Leads (m : Machine V) : Config V → Config V → Prop
  | refl (c : Config V) : Leads m c c
  | step {c d e : Config V} (hs : m.step c = (.running, d)) (h : Leads m d e) : Leads m c e

theorem Leads.trans {c d e : Config V} (h : m.Leads c d) (h' : m.Leads d e) : m.Leads c e := by
  induction h with
  | refl => exact h'
  | step hs _ ih => exact .step hs (ih h')

theorem Leads.single {c d : Config V} (hs : m.step c = (.running, d)) : m.Leads c d :=
  .step hs (.refl d)

theorem Leads.ends {c d e : Config V} {r : Except Failure (Outcome V)} (h : m.Leads c d)
    (h' : m.Ends d r e) : m.Ends c r e := by
  induction h with
  | refl => exact h'
  | step hs _ ih => exact .of_running hs (ih h')

end Machine

end ShiftReduce
