import ShiftReduce.Proofs.Runs
import ShiftReduce.Proofs.StreamRefinement

/-! # Runs on streams that agree

A machine knows its stream only by the tokens that it delivers and by the place where it stands. Two
machines whose streams agree in that take the same steps, whatever their inputs are made of.
-/

namespace ShiftReduce

/-- Two streams deliver the same tokens, and stand at the same place. -/
structure Stream.Agree (s r : Stream) : Prop where
  tokens : ∃ ts, s.tokens = .ok ts ∧ r.tokens = .ok ts
  location : s.location = r.location

namespace Stream.Agree

variable {s r : Stream}

theorem next (h : s.Agree r) : s.next.1 = r.next.1 ∧ s.next.2.Agree r.next.2 := by
  obtain ⟨ts, hs, hr⟩ := h.tokens
  obtain ⟨s', hs', hst, hsl⟩ := (refines_of_tokens hs).next
  obtain ⟨r', hr', hrt, hrl⟩ := (refines_of_tokens hr).next
  rw [hs', hr']
  refine ⟨rfl, ⟨ts.tail, hst, hrt⟩, ?_⟩
  rw [hsl, hrl, h.location]

theorem peek (h : s.Agree r) : s.peek.1 = r.peek.1 ∧ s.peek.2.Agree r.peek.2 := by
  obtain ⟨ts, hs, hr⟩ := h.tokens
  obtain ⟨s', hs', hst, hsl, -⟩ := (refines_of_tokens hs).peek
  obtain ⟨r', hr', hrt, hrl, -⟩ := (refines_of_tokens hr).peek
  rw [hs', hr']
  refine ⟨rfl, ⟨ts, hst, hrt⟩, ?_⟩
  rw [hsl, hrl, h.location]

theorem of_supply {i j : Input} {es : List Event} (hi : i.supply = .ok es) (hj : j.supply = .ok es)
    (hname : i.name = j.name) (hline : i.line = j.line) :
    (Stream.ofInputs [i]).Agree (Stream.ofInputs [j]) := by
  refine ⟨⟨_, tokens_single hi, ?_⟩, rfl⟩
  rw [hname, hline]
  exact tokens_single hj

end Stream.Agree

variable {V : Type} {m : Machine V} {c d : Config V}

/-- Two configurations are the same but for their streams, which are related. -/
def Config.Alike (ρ : Stream → Stream → Prop) (c d : Config V) : Prop :=
  ∃ s, ρ c.stream s ∧ d = { c with stream := s }

theorem Config.Alike.mono {ρ σ : Stream → Stream → Prop} (h : c.Alike ρ d)
    (hσ : ∀ {s r}, ρ s r → σ s r) : c.Alike σ d := by
  obtain ⟨s, hs, rfl⟩ := h
  exact ⟨s, hσ hs, rfl⟩

theorem Config.Alike.symm {ρ : Stream → Stream → Prop} (h : c.Alike ρ d) :
    d.Alike (fun s r => ρ r s) c := by
  obtain ⟨s, hs, rfl⟩ := h
  exact ⟨c.stream, hs, rfl⟩

/-- Two configurations are the same but for their streams, which agree. -/
def Config.Agree (c d : Config V) : Prop := c.Alike Stream.Agree d

namespace Machine

/-! ## One step -/

theorem traced_stream (m : Machine V) (c : Config V) (text : String) (s : Stream) :
    m.traced { c with stream := s } text = { m.traced c text with stream := s } := by
  unfold traced
  split <;> rfl

@[simp]
theorem stream_traced (m : Machine V) (c : Config V) (text : String) :
    (m.traced c text).stream = c.stream := by
  unfold traced
  split <;> rfl

section Alike

variable {ρ σ : Stream → Stream → Prop}

theorem alike_traced (h : c.Alike ρ d) (text : String) :
    (m.traced c text).Alike ρ (m.traced d text) := by
  obtain ⟨s, hs, rfl⟩ := h
  refine ⟨s, ?_, traced_stream m c text s⟩
  rw [stream_traced]
  exact hs

theorem reduce_alike (hplace : ∀ {s r}, ρ s r → s.location = r.location) (h : c.Alike ρ d)
    (id : Int) :
    (m.reduce c id).1 = (m.reduce d id).1 ∧ (m.reduce c id).2.Alike ρ (m.reduce d id).2 := by
  obtain ⟨s, hs, rfl⟩ := h
  unfold reduce
  dsimp only
  rw [← hplace hs]
  split
  · exact ⟨rfl, s, hs, rfl⟩
  split
  · exact ⟨rfl, s, hs, rfl⟩
  next r _ =>
  split
  · exact ⟨rfl, s, hs, rfl⟩
  split
  · exact ⟨rfl, s, hs, rfl⟩
  split
  · exact ⟨rfl, s, hs, rfl⟩
  · have hafter : Config.Alike ρ { c with values := r.values, states := r.states }
        { c with values := r.values, states := r.states, stream := s } := ⟨s, hs, rfl⟩
    obtain ⟨s', hs', htraced⟩ := alike_traced (m := m) hafter _
    rw [htraced]
    exact ⟨rfl, s', hs', rfl⟩

theorem act_alike (hplace : ∀ {s r}, ρ s r → s.location = r.location)
    (hstay : ∀ {s r}, ρ s r → σ s r) (hnext : ∀ {s r}, ρ s r → σ s.next.2 r.next.2)
    (h : c.Alike ρ d) (state : Option Int) (look : Option Token) :
    (m.act c state look).1 = (m.act d state look).1 ∧
      (m.act c state look).2.Alike σ (m.act d state look).2 := by
  unfold act
  dsimp only
  have ht := alike_traced (m := m) h (stepText state look (m.actionFor state look))
  generalize m.traced c _ = c at ht ⊢
  generalize m.traced d _ = d at ht ⊢
  obtain ⟨s, hs, rfl⟩ := ht
  have herror : m.syntaxError { c with stream := s } state look = m.syntaxError c state look := by
    unfold syntaxError
    dsimp only
    rw [hplace hs]
  split
  · exact ⟨rfl, _, hnext hs, rfl⟩
  · have hc : c.Alike ρ { c with stream := s } := ⟨s, hs, rfl⟩
    exact ⟨(reduce_alike hplace hc _).1, (reduce_alike hplace hc _).2.mono hstay⟩
  · exact ⟨rfl, s, hstay hs, rfl⟩
  · exact ⟨rfl, s, hstay hs, rfl⟩
  · rw [herror]
    exact ⟨rfl, s, hstay hs, rfl⟩

end Alike

theorem step_agree (h : c.Agree d) :
    (m.step c).1 = (m.step d).1 ∧ (m.step c).2.Agree (m.step d).2 := by
  obtain ⟨s, hs, rfl⟩ := h
  unfold step
  dsimp only
  obtain ⟨hlook, hpeek⟩ := hs.peek
  rcases hc : c.stream.peek with ⟨x, q⟩
  rcases hd : s.peek with ⟨y, r⟩
  rw [hc, hd] at hlook hpeek
  dsimp only at hlook hpeek
  subst hlook
  cases x with
  | error f => exact ⟨rfl, r, hpeek, rfl⟩
  | ok look =>
    dsimp only
    split
    · exact ⟨rfl, _, hpeek.next.2, rfl⟩
    · have hlook : Config.Alike Stream.Agree { c with stream := q } { c with stream := r } :=
        ⟨r, hpeek, rfl⟩
      exact act_alike Stream.Agree.location id (fun h => h.next.2) hlook _ _

/-! ## Runs -/

/-- All that a run leaves but its stream. -/
def observed (x : Except Failure (Outcome V) × Config V) :
    Except Failure (Outcome V) × Config V :=
  (x.1, { x.2 with stream := .ofInputs [] })

theorem observed_alike {ρ : Stream → Stream → Prop} (h : c.Alike ρ d)
    (r : Except Failure (Outcome V)) : observed (r, c) = observed (r, d) := by
  obtain ⟨s, -, rfl⟩ := h
  rfl

theorem outcome_alike {ρ : Stream → Stream → Prop} (h : c.Alike ρ d) : outcome c = outcome d := by
  obtain ⟨s, -, rfl⟩ := h
  rfl

/-- If each step of two runs ends alike and leads on to such steps, so do the runs. -/
theorem run_of_steps {R : Nat → Config V → Config V → Prop} {ρ : Stream → Stream → Prop}
    (hstep : ∀ {fuel c d}, R (fuel + 1) c d → (m.step c).1 = (m.step d).1 ∧
      (m.step c).2.Alike ρ (m.step d).2 ∧
      ((m.step c).1 = .running → R fuel (m.step c).2 (m.step d).2)) (fuel : Nat) (h : R fuel c d) :
    (m.run fuel c = none ∧ m.run fuel d = none) ∨
      ∃ r e e', m.run fuel c = some (r, e) ∧ m.run fuel d = some (r, e') ∧ e.Alike ρ e' := by
  induction fuel generalizing c d with
  | zero => exact Or.inl ⟨rfl, rfl⟩
  | succ fuel ih =>
    obtain ⟨hv, hnext, hgo⟩ := hstep h
    rw [run_succ, run_succ]
    rcases hc : m.step c with ⟨v, c'⟩
    rcases hd : m.step d with ⟨u, d'⟩
    rw [hc, hd] at hv hnext hgo
    obtain rfl : v = u := hv
    cases v with
    | running => exact ih (hgo rfl)
    | halted => exact Or.inr ⟨_, c', d', rfl, by rw [outcome_alike hnext], hnext⟩
    | failed f => exact Or.inr ⟨_, c', d', rfl, rfl, hnext⟩

theorem run_of_alike {ρ : Stream → Stream → Prop}
    (hstep : ∀ {c d : Config V}, c.Alike ρ d →
      (m.step c).1 = (m.step d).1 ∧ (m.step c).2.Alike ρ (m.step d).2)
    (h : c.Alike ρ d) (fuel : Nat) :
    (m.run fuel c).map observed = (m.run fuel d).map observed := by
  have hruns := run_of_steps (m := m) (R := fun _ c d => c.Alike ρ d) (ρ := ρ)
    (fun h => ⟨(hstep h).1, (hstep h).2, fun _ => (hstep h).2⟩) fuel h
  rcases hruns with ⟨hc, hd⟩ | ⟨r, e, e', hc, hd, he⟩
  · rw [hc, hd]
  · rw [hc, hd]
    exact congrArg some (observed_alike he r)

theorem run_agree (h : c.Agree d) (fuel : Nat) :
    (m.run fuel c).map observed = (m.run fuel d).map observed :=
  run_of_alike (fun h => step_agree h) h fuel

theorem parse_agree (h : c.Agree d) (fuel : Nat) :
    (m.parse fuel c).map observed = (m.parse fuel d).map observed := by
  unfold parse
  split
  · exact congrArg some (observed_alike h _)
  · exact run_agree h fuel

end Machine

end ShiftReduce
