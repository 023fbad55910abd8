import ShiftReduce.Proofs.Agreement
import ShiftReduce.Proofs.Runs

/-! # Tokens that are passed over leave no trace

A machine takes one step for each token that it passes over. Without these tokens it takes fewer
steps, but the same in between, and it ends in the same way and at the same place.
-/

namespace ShiftReduce

/-! ## Fewer tokens -/

/-- A mark, or a token that is not passed over. -/
def Event.isKept (skip : List String) : Event → Bool
  | .token t => !skip.contains t.kind
  | .mark _ => true

/-- Some tokens that are passed over are left out. The last token never is. -/
inductive Thinned (skip : List String) :
    List (Token × Location) → List (Token × Location) → Prop
  | nil : Thinned skip [] []
  | keep {ts us : List (Token × Location)} (x : Token × Location) (h : Thinned skip ts us) :
      Thinned skip (x :: ts) (x :: us)
  | drop {ts us : List (Token × Location)} {x : Token × Location}
      (hx : skip.contains x.1.kind = true) (h : Thinned skip ts us) (hne : us ≠ []) :
      Thinned skip (x :: ts) us

theorem Thinned.located {skip : List String} {ts us : List (Token × Location)}
    (h : Thinned skip ts us) (name : String) (line : Int) (es : List Event) :
    Thinned skip (located name line es ++ ts)
      (located name line (es.filter (Event.isKept skip)) ++ us) := by
  induction es generalizing line with
  | nil => exact .keep _ h
  | cons e es ih =>
    cases e with
    | mark l => exact ih l
    | token t =>
      cases hk : skip.contains t.kind with
      | false =>
        rw [List.filter_cons_of_pos (by rw [Event.isKept, hk]; rfl)]
        exact .keep _ (ih line)
      | true =>
        rw [List.filter_cons_of_neg (by rw [Event.isKept, hk]; decide)]
        exact .drop hk (ih line) (by simp [located_ne_nil])

namespace Stream

variable {skip : List String} {s r : Stream}

/-- One stream delivers what is left of the tokens of another. Only the next token sets the place, so
where there is none they must stand at the same place already. -/
def Thins (skip : List String) (s r : Stream) : Prop :=
  ∃ ts us, s.tokens = .ok ts ∧ r.tokens = .ok us ∧ Thinned skip ts us ∧
    (us = [] → s.location = r.location)

theorem tokens_lists (inputs : List (String × List Event)) :
    (ofInputs (inputs.map fun i => Input.tokens i.2 i.1)).tokens =
      .ok (inputs.flatMap fun i => located i.1 0 i.2) := by
  have hflows : ∀ i ∈ inputs.map fun i => Input.tokens i.2 i.1, i.Flows := by
    intro i hi
    obtain ⟨j, -, rfl⟩ := List.mem_map.mp hi
    exact flows_list j.2 j.1
  have hdelivery : ∀ j : String × List Event,
      (Input.tokens j.2 j.1).delivery = located j.1 0 j.2 := by
    intro j
    have hsupply : (Input.tokens j.2 j.1).supply = .ok j.2 := supply_list j.2 j.1 0
    simp only [Input.delivery, Input.remaining, hsupply]
    rfl
  rw [tokens_ofInputs hflows, List.flatMap_map]
  simp only [hdelivery]

theorem thins_start (skip : List String) (inputs : List (String × List Event)) :
    Thins skip (ofInputs (inputs.map fun i => Input.tokens i.2 i.1))
      (ofInputs ((inputs.map fun i => (i.1, i.2.filter (Event.isKept skip))).map fun i =>
        Input.tokens i.2 i.1)) := by
  refine ⟨_, _, tokens_lists inputs, tokens_lists _, ?_, fun _ => rfl⟩
  rw [List.flatMap_map]
  induction inputs with
  | nil => exact .nil
  | cons i inputs ih => exact ih.located i.1 0 i.2

/-- Two streams that have the same token in front, at the same place. -/
structure Faces (skip : List String) (s r : Stream) : Prop where
  thins : Thins skip s r
  next : Thins skip s.next.2 r.next.2
  location : s.location = r.location

theorem peek_front {x : Token × Location} {ts : List (Token × Location)}
    (h : s.tokens = .ok (x :: ts)) :
    ∃ q, s.peek = (.ok (some x.1), q) ∧ q.tokens = .ok (x :: ts) ∧ q.location = x.2 ∧
      q.next.2.tokens = .ok ts ∧ q.next.2.location = x.2 := by
  obtain ⟨q, hq, htokens, hplace, -⟩ := (refines_of_tokens h).peek
  obtain ⟨q', hq', htail, hplace'⟩ := (refines_of_tokens htokens).next
  refine ⟨q, hq, htokens, hplace, ?_⟩
  rw [hq']
  exact ⟨htail, hplace'⟩

theorem Thins.peek (h : Thins skip s r) :
    (∃ x ts q, s.tokens = .ok (x :: ts) ∧ s.peek = (.ok (some x.1), q) ∧
      skip.contains x.1.kind = true ∧ q.next.2.tokens = .ok ts ∧ Thins skip q.next.2 r) ∨
    ∃ look q q', s.peek = (.ok look, q) ∧ r.peek = (.ok look, q') ∧ Faces skip q q' := by
  obtain ⟨ts, us, hs, hr, hthin, hplace⟩ := h
  cases hthin with
  | nil =>
    have hend : Thins skip s r := ⟨_, _, hs, hr, .nil, hplace⟩
    refine Or.inr ⟨none, s, r, peek_of_nil hs, peek_of_nil hr, hend, ?_, hplace rfl⟩
    rw [next_of_nil hs, next_of_nil hr]
    exact hend
  | @keep ts us x hthin =>
    obtain ⟨q, hq, htokens, hloc, hnext, hnloc⟩ := peek_front hs
    obtain ⟨q', hq', htokens', hloc', hnext', hnloc'⟩ := peek_front hr
    refine Or.inr ⟨some x.1, q, q', hq, hq', ?_, ?_, hloc.trans hloc'.symm⟩
    · exact ⟨_, _, htokens, htokens', .keep x hthin, fun _ => hloc.trans hloc'.symm⟩
    · exact ⟨_, _, hnext, hnext', hthin, fun _ => hnloc.trans hnloc'.symm⟩
  | @drop ts _ x hx hthin hne =>
    obtain ⟨q, hq, -, -, hnext, -⟩ := peek_front hs
    exact Or.inl ⟨x, ts, q, hs, hq, hx, hnext, ts, us, hnext, hr, hthin, fun h => absurd h hne⟩

end Stream

namespace Machine

variable {V : Type} {m : Machine V} {c d e : Config V} {fuel : Nat}
  {r : Except Failure (Outcome V)}

/-! ## One step -/

/-- A machine passes over a token that the other one is not given, or both take the same step. -/
theorem step_thins (h : c.Alike (Stream.Thins m.skip) d) :
    (∃ c' x ts, m.step c = (.running, c') ∧ c'.Alike (Stream.Thins m.skip) d ∧
      c.stream.tokens = .ok (x :: ts) ∧ c'.stream.tokens = .ok ts) ∨
    (m.step c).1 = (m.step d).1 ∧ (m.step c).2.Alike (Stream.Thins m.skip) (m.step d).2 := by
  obtain ⟨s, hs, rfl⟩ := h
  rcases hs.peek with ⟨x, ts, q, htokens, hp, hk, hnext, hthins⟩ | ⟨look, q, q', hp, hp', hfaces⟩
  · exact Or.inl ⟨_, x, ts, step_skip hp hk, ⟨s, hthins, rfl⟩, htokens, hnext⟩
  · right
    unfold step
    dsimp only
    rw [hp, hp']
    dsimp only
    split
    · exact ⟨rfl, _, hfaces.next, rfl⟩
    · have hlook : Config.Alike (Stream.Faces m.skip) { c with stream := q }
          { c with stream := q' } := ⟨q', hfaces, rfl⟩
      exact act_alike Stream.Faces.location Stream.Faces.thins Stream.Faces.next hlook _ _

theorem catches_up (h : c.Alike (Stream.Thins m.skip) d) :
    ∃ c', m.Leads c c' ∧ (m.step c').1 = (m.step d).1 ∧
      (m.step c').2.Alike (Stream.Thins m.skip) (m.step d).2 := by
  obtain ⟨ts, -, hts, -⟩ : Stream.Thins m.skip c.stream d.stream := by
    obtain ⟨s, hs, rfl⟩ := h
    exact hs
  -- On the tokens to come: each one that is passed over leaves fewer.
  induction ts generalizing c with
  | nil =>
    obtain ⟨_, x, ts, -, -, htokens, -⟩ | ⟨hv, hstep⟩ := step_thins h
    · rw [hts] at htokens
      cases htokens
    · exact ⟨c, .refl c, hv, hstep⟩
  | cons y ys ih =>
    obtain ⟨c', x, ts, hs, hc', htokens, hts'⟩ | ⟨hv, hstep⟩ := step_thins h
    · rw [hts, Except.ok.injEq, List.cons.injEq] at htokens
      obtain ⟨c'', hlead, hsame⟩ := ih hc' (htokens.2 ▸ hts')
      exact ⟨c'', .step hs hlead, hsame⟩
    · exact ⟨c, .refl c, hv, hstep⟩

/-! ## Runs -/

theorem ends_of_step {ρ : Stream → Stream → Prop} (hv : (m.step c).1 = (m.step d).1)
    (hstep : (m.step c).2.Alike ρ (m.step d).2) (hrun : m.run (fuel + 1) c = some (r, e))
    (hrest : m.run fuel (m.step c).2 = some (r, e) →
      ∃ e', m.Ends (m.step d).2 r e' ∧ observed (r, e') = observed (r, e)) :
    ∃ e', m.Ends d r e' ∧ observed (r, e') = observed (r, e) := by
  rcases hc : m.step c with ⟨v, c'⟩
  rcases hd : m.step d with ⟨u, d'⟩
  rw [run_succ, hc] at hrun
  rw [hc, hd] at hv hstep
  rw [hc, hd] at hrest
  obtain rfl : v = u := hv
  cases v with
  | running =>
    obtain ⟨e', hend, hobs⟩ := hrest hrun
    exact ⟨e', .of_running hd hend, hobs⟩
  | halted =>
    simp only [Option.some.injEq, Prod.mk.injEq] at hrun
    obtain ⟨rfl, rfl⟩ := hrun
    refine ⟨d', ?_, (observed_alike hstep _).symm⟩
    rw [outcome_alike hstep]
    exact .of_halted hd
  | failed f =>
    simp only [Option.some.injEq, Prod.mk.injEq] at hrun
    obtain ⟨rfl, rfl⟩ := hrun
    exact ⟨d', .of_failed hd, (observed_alike hstep _).symm⟩

theorem ends_of_run_thins (h : c.Alike (Stream.Thins m.skip) d)
    (hrun : m.run fuel c = some (r, e)) :
    ∃ e', m.Ends d r e' ∧ observed (r, e') = observed (r, e) := by
  induction fuel generalizing c d with
  | zero => simp [run] at hrun
  | succ fuel ih =>
    obtain ⟨c', x, ts, hs, hc', -⟩ | ⟨hv, hstep⟩ := step_thins h
    · rw [run_succ, hs] at hrun
      exact ih hc' hrun
    · exact ends_of_step hv hstep hrun (ih hstep)

theorem ends_of_run_thinned (h : c.Alike (Stream.Thins m.skip) d)
    (hrun : m.run fuel d = some (r, e)) :
    ∃ e', m.Ends c r e' ∧ observed (r, e') = observed (r, e) := by
  induction fuel generalizing c d with
  | zero => simp [run] at hrun
  | succ fuel ih =>
    obtain ⟨c', hlead, hv, hstep⟩ := catches_up h
    obtain ⟨e', hend, hobs⟩ := ends_of_step hv.symm hstep.symm hrun (ih hstep)
    exact ⟨e', hlead.ends hend, hobs⟩

theorem parse_thins (h : c.Alike (Stream.Thins m.skip) d)
    (x : Except Failure (Outcome V) × Config V) :
    (∃ fuel, (m.parse fuel c).map observed = some x) ↔
      ∃ fuel, (m.parse fuel d).map observed = some x := by
  unfold parse
  split
  · simp only [Option.map_some, observed_alike h]
  · constructor
    · rintro ⟨fuel, hx⟩
      obtain ⟨⟨r, e⟩, hrun, rfl⟩ := Option.map_eq_some_iff.mp hx
      obtain ⟨e', ⟨fuel', hend⟩, hobs⟩ := ends_of_run_thins h hrun
      exact ⟨fuel', by rw [hend, Option.map_some, hobs]⟩
    · rintro ⟨fuel, hx⟩
      obtain ⟨⟨r, e⟩, hrun, rfl⟩ := Option.map_eq_some_iff.mp hx
      obtain ⟨e', ⟨fuel', hend⟩, hobs⟩ := ends_of_run_thinned h hrun
      exact ⟨fuel', by rw [hend, Option.map_some, hobs]⟩

/-- The tokens that a machine passes over can be left out of its inputs. A run on them ends if and
only if it ends without them, with the same outcome, stacks, reports and traces. -/
theorem skipped_tokens_leave_no_trace (m : Machine V) (inputs : List (String × List Event))
    (x : Except Failure (Outcome V) × Config V) :
    let kept := inputs.map fun i => (i.1, i.2.filter (Event.isKept m.skip))
    let stream (inputs : List (String × List Event)) : Stream :=
      .ofInputs (inputs.map fun i => Input.tokens i.2 i.1)
    (∃ fuel, (m.parse fuel (m.start (stream inputs))).map observed = some x) ↔
      ∃ fuel, (m.parse fuel (m.start (stream kept))).map observed = some x :=
  parse_thins ⟨_, Stream.thins_start m.skip inputs, rfl⟩ x

end Machine

end ShiftReduce
