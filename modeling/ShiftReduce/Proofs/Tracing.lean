import ShiftReduce.Proofs.Runs

/-! # Tracing changes nothing but the trace

A machine that traces its steps takes the same steps as one that does not. What it has noted besides
the trace is the syntax error that it ended with, if it ended with one.
-/

namespace ShiftReduce

def Note.isReport : Note → Bool
  | .report _ => true
  | .trace _ => false

variable {V : Type}

/-- A configuration without its trace. -/
def Config.quiet (c : Config V) : Config V := { c with notes := c.notes.filter Note.isReport }

theorem Config.notes_quiet (c : Config V) : c.quiet.notes.reverse = c.reports.map .report := by
  simp only [quiet, reports, ← List.filter_reverse]
  induction c.notes.reverse with
  | nil => rfl
  | cons n ns ih =>
    cases n with
    | trace text => exact ih
    | report e => exact congrArg (Note.report e :: ·) ih

namespace Machine

/-- The same machine without tracing. -/
def quiet (m : Machine V) : Machine V := { m with debug := false }

/-! ## One step -/

theorem traced_quiet (m : Machine V) (c : Config V) (text : String) :
    (m.traced c text).quiet = c.quiet := by
  unfold traced
  split <;> rfl

theorem reduce_quiet (m : Machine V) (c : Config V) (id : Int) :
    m.quiet.reduce c.quiet id = ((m.reduce c id).1, (m.reduce c id).2.quiet) := by
  unfold reduce
  dsimp only [quiet, Config.quiet]
  cases m.rules.lookup id with
  | none => rfl
  | some rule =>
    dsimp only
    cases rule.reduce id c.values c.states with
    | error f => rfl
    | ok r =>
      dsimp only
      cases r.exposed with
      | none => rfl
      | some state =>
        dsimp only
        cases r.values.peek with
        | none => rfl
        | some symbol =>
          dsimp only
          cases m.table.goto? state symbol.name with
          | none => rfl
          | some target =>
            dsimp only [traced]
            cases m.debug <;> rfl

theorem act_quiet (m : Machine V) (c : Config V) (state : Option Int) (look : Option Token) :
    m.quiet.act c.quiet state look =
      ((m.act c state look).1, (m.act c state look).2.quiet) := by
  unfold act
  have haction : m.quiet.actionFor state look = m.actionFor state look := rfl
  have hstays : ∀ text, m.quiet.traced c.quiet text = c.quiet := fun _ => rfl
  dsimp only
  rw [haction, hstays, ← traced_quiet m c (stepText state look (m.actionFor state look))]
  generalize m.traced c _ = d
  cases m.actionFor state look with
  | none => rfl
  | some action =>
    cases action with
    | shift target => cases look <;> rfl
    | reduce id => exact reduce_quiet m d id
    | accept => rfl
    | unknown label => rfl

theorem step_quiet (m : Machine V) (c : Config V) :
    m.quiet.step c.quiet = ((m.step c).1, (m.step c).2.quiet) := by
  have hpeek : c.quiet.stream.peek = c.stream.peek := rfl
  unfold step
  rw [hpeek]
  rcases c.stream.peek with ⟨f | look, s⟩
  · rfl
  · dsimp only
    by_cases hskip : (look.map fun t => m.skip.contains t.kind).getD false = true
    · rw [if_pos hskip]
      exact if_pos hskip
    · rw [if_neg hskip]
      exact (if_neg hskip).trans (act_quiet m { c with stream := s } _ _)

/-! ## Runs -/

theorem run_quiet (m : Machine V) (fuel : Nat) (c : Config V) :
    m.quiet.run fuel c.quiet = (m.run fuel c).map fun x => (x.1, x.2.quiet) := by
  induction fuel generalizing c with
  | zero => rfl
  | succ fuel ih =>
    rw [run_succ, run_succ, step_quiet]
    rcases m.step c with ⟨_ | _ | f, d⟩
    · exact ih d
    · rfl
    · rfl

variable {m : Machine V} {c d : Config V}

/-- The syntax errors that go with a result. -/
def reported : Except Failure (Outcome V) → List SyntaxError
  | .ok (.rejected e) => e.toList
  | _ => []

theorem reduce_reports (m : Machine V) (c : Config V) (id : Int) :
    (m.reduce c id).1 ≠ .halted ∧ (m.reduce c id).2.reports = c.reports ∧
      (m.reduce c id).2.accepted = c.accepted := by
  unfold reduce
  cases m.rules.lookup id with
  | none => simp
  | some rule =>
    dsimp only
    cases rule.reduce id c.values c.states with
    | error f => simp
    | ok r =>
      dsimp only
      split
      · exact ⟨by simp, rfl, rfl⟩
      split
      · exact ⟨by simp, rfl, rfl⟩
      split
      · exact ⟨by simp, rfl, rfl⟩
      · obtain ⟨notes, ht, hn⟩ :=
          traced_eq m { c with values := r.values, states := r.states } _ (.refl c.notes)
        rw [ht]
        exact ⟨by simp, hn.reports, rfl⟩

/-- What a step tells, whatever its rules do: nothing while it goes on or fails, and otherwise that
the machine has accepted, or one error at the token looked at. -/
inductive Telling (m : Machine V) (c d : Config V) : Verdict → Prop
  | nothing {v : Verdict} (hv : v ≠ .halted) (hr : d.reports = c.reports)
      (ha : d.accepted = c.accepted) : Telling m c d v
  | accept (hr : d.reports = c.reports) (ha : d.accepted = true) : Telling m c d .halted
  | reject {look : Option Token} {s : Stream} {e : SyntaxError}
      (hp : c.stream.peek = (.ok look, s)) (hs : d.stream = s)
      (he : e = m.syntaxError { c with stream := s } c.states.peek look)
      (hr : d.reports = c.reports ++ [e]) (hd : d.error = some e) (ha : d.accepted = c.accepted) :
      Telling m c d .halted

theorem step_tells (m : Machine V) (c : Config V) : Telling m c (m.step c).2 (m.step c).1 := by
  rcases hp : c.stream.peek with ⟨_ | look, s⟩
  · simp only [step, hp]
    exact .nothing (by simp) rfl rfl
  · by_cases hk : ∀ t ∈ look, m.skip.contains t.kind = false
    · cases ha : m.actionFor c.states.peek look with
      | none =>
        obtain ⟨notes, e, hn, he, hstep⟩ := step_reject hp hk ha
        rw [hstep]
        have hsame : ({ c with notes := notes } : Config V).reports = c.reports := hn.reports
        refine .reject hp rfl he ?_ rfl rfl
        rw [← hsame]
        simp [Config.reports]
      | some action =>
        obtain ⟨p, hs, t, rfl, hact⟩ : ∃ p, c.states.peek = some p ∧ ∃ t, look = some t ∧
            m.table.action? p t.kind = some action := by
          simpa [actionFor, Option.bind_eq_some_iff] using ha
        obtain ⟨notes, hn, hstep⟩ := step_action hp (hk t rfl) hs hact
        rw [hstep]
        cases action with
        | shift q => exact .nothing (by simp) hn.reports rfl
        | reduce id =>
          obtain ⟨hv, hr, ha⟩ := reduce_reports m { c with stream := s, notes := notes } id
          exact .nothing hv (hr.trans hn.reports) ha
        | accept => exact .accept hn.reports rfl
        | unknown label => exact .nothing (by simp) hn.reports rfl
    · obtain ⟨t, rfl, hskip⟩ : ∃ t, look = some t ∧ m.skip.contains t.kind = true := by
        simpa [Classical.not_forall] using hk
      rw [step_skip hp hskip]
      exact .nothing (by simp) rfl rfl

theorem after_silent {n : Nat} (hrep : c.reports = []) (hacc : c.accepted = false)
    (hgo : ∀ k < n, m.verdictAt k c = .running) :
    (m.after n c).reports = [] ∧ (m.after n c).accepted = false := by
  refine after_invariant (I := fun c => c.reports = [] ∧ c.accepted = false)
    (P := fun v => v = .running) ?_ ⟨hrep, hacc⟩ hgo
  rintro c ⟨hrep, hacc⟩ hv
  have ht := step_tells m c
  rw [hv] at ht
  cases ht with
  | nothing _ hr ha => exact ⟨hr.trans hrep, ha.trans hacc⟩

theorem run_reports {fuel : Nat} {r : Except Failure (Outcome V)} (hrep : c.reports = [])
    (hacc : c.accepted = false) (h : m.run fuel c = some (r, d)) : d.reports = reported r := by
  obtain ⟨n, hgo, rfl, hlast⟩ := run_last h
  obtain ⟨hnone, hwait⟩ := after_silent hrep hacc hgo
  have ht := step_tells m (m.after n c)
  rw [← after_succ] at ht
  obtain ⟨hhalt, rfl⟩ | ⟨f, hfail, rfl⟩ := hlast
  · rw [← verdictAt, hhalt] at ht
    cases ht with
    | nothing hv => exact absurd rfl hv
    | accept hr ha =>
      rw [hr, hnone]
      unfold outcome
      rw [if_pos ha]
      split <;> rfl
    | reject _ _ _ hr hd ha =>
      rw [hr, hnone]
      unfold outcome
      rw [if_neg (by rw [ha, hwait]; decide), hd]
      rfl
  · rw [← verdictAt, hfail] at ht
    cases ht with
    | nothing _ hr _ => rw [hr, hnone]; rfl

theorem Ends.notes {s : Stream} {r : Except Failure (Outcome V)} (h : m.Ends (m.start s) r d)
    (hm : m.debug = false) :
    d.notes.reverse = (reported r).map .report := by
  obtain ⟨fuel, hrun⟩ := h
  have hsame : m.quiet = m := by rw [quiet, ← hm]
  have hquiet := run_quiet m fuel (m.start s)
  have hstart : (m.start s).quiet = m.start s := rfl
  rw [hsame, hstart, hrun, Option.map_some, Option.some.injEq, Prod.mk.injEq] at hquiet
  rw [hquiet.2, Config.notes_quiet, run_reports rfl rfl hrun]

end Machine

end ShiftReduce
