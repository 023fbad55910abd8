import ShiftReduce.Proofs.Steps

/-! # Steps that do not go on

A step that reports an error, accepts or fails leaves both stacks as they were, and its stream still
has all its tokens. One failure comes too late for that: a reduction that is made and then has no
state to go to.
-/

namespace ShiftReduce

/-! ## Looking at a token takes none -/

namespace Stream

variable {s r : Stream} {look : Option Token}

/-- What the next `n` calls for a token answer, each with the place where the stream then stands. -/
def answers : Nat → Stream → List (Except Failure (Option Token) × Location)
  | 0, _ => []
  | n + 1, s => (s.next.1, s.next.2.location) :: answers n s.next.2

theorem next_none (h : s.next = (.ok none, r)) : r = s := by
  unfold next at h
  split at h
  · simp at h
  split at h
  · exact (Prod.mk.inj h).2.symm
  split at h
  · simp at h
  split at h <;> simp at h

theorem next_of_peek (h : s.peek = (.ok look, r)) : r.next = s.next ∧ s.next.1 = .ok look := by
  unfold peek at h
  rcases hn : s.next with ⟨_ | (_ | t), q⟩
  · rw [hn] at h
    cases h
  · rw [hn] at h
    cases h
    obtain rfl := next_none hn
    exact ⟨hn, rfl⟩
  · rw [hn] at h
    cases h
    exact ⟨rfl, rfl⟩

theorem location_peek {t : Token} (h : s.peek = (.ok (some t), r)) :
    r.location = s.next.2.location := by
  unfold peek at h
  rcases hn : s.next with ⟨_ | (_ | u), q⟩ <;> rw [hn] at h <;> cases h
  rfl

theorem answers_of_next (h : r.next = s.next) (n : Nat) : r.answers n = s.answers n := by
  cases n with
  | zero => rfl
  | succ n => rw [answers, answers, h]

end Stream

namespace Machine

variable {V : Type} {m : Machine V} {c d : Config V} {v : Verdict}

/-! ## The stacks -/

/-- A step comes to a reduction that has a value, but no state to go to. -/
structure Lost (m : Machine V) (c : Config V) (id exposed : Int) (lhs : String) (arity : Nat)
    (value : V) : Prop where
  look : ∃ t s p, c.stream.peek = (.ok (some t), s) ∧ m.skip.contains t.kind = false ∧
    c.states.peek = some p ∧ m.table.action? p t.kind = some (.reduce id)
  reduction : Reduction m c id lhs arity exposed value
  goto : m.table.goto? exposed lhs = none

theorem Effect.stacks (he : Effect m c v d) (hv : v ≠ .running) :
    (d.values = c.values ∧ d.states = c.states) ∨
      ∃ id e lhs arity x, m.Lost c id e lhs arity x := by
  cases he with
  | broken hp => exact Or.inl ⟨rfl, rfl⟩
  | skip hp hk => exact absurd rfl hv
  | shift hp hk hs ha hn => exact absurd rfl hv
  | reduce hp hk hs ha hr hg hn => exact absurd rfl hv
  | accept hp hk hs ha hn => exact Or.inl ⟨rfl, rfl⟩
  | reject hp hk ha he hn => exact Or.inl ⟨rfl, rfl⟩
  | stuck hp hk hs ha ho hn => exact Or.inl ⟨rfl, rfl⟩
  | lost hp hk hs ha hr hg hn =>
    exact Or.inr ⟨_, _, _, _, _, ⟨_, _, _, hp, hk, hs, ha⟩, hr, hg⟩

theorem step_lost {id e : Int} {lhs : String} {arity : Nat} {x : V}
    (h : m.Lost c id e lhs arity x) :
    (m.step c).1 = .failed (.config (.noGoto m.table.name e lhs)) ∧
      (m.step c).2.values = (c.values.drop arity).push (.nonterminal lhs x) ∧
      (m.step c).2.states = c.states.drop arity := by
  obtain ⟨t, s, p, hp, hk, hs, ha⟩ := h.look
  obtain ⟨eval, hl, hx⟩ := h.reduction.rule
  have hshort : ¬ (c.values.size < arity ∨ c.states.size < arity + 1) := by
    have := h.reduction.values
    have := Stack.lt_size_of_peek_drop h.reduction.states
    omega
  obtain ⟨notes, -, hstep⟩ := step_action hp hk hs ha
  rw [hstep]
  simp only [reduce, hl, Rule.reduce, hshort, if_false, hx, h.reduction.states, Stack.peek_push,
    Symbol.name, h.goto]
  exact ⟨trivial, trivial, trivial⟩

/-! ## The stream -/

theorem Effect.next (he : Effect m c v d) (hv : v ≠ .running) {look : Option Token} {s : Stream}
    (hp : c.stream.peek = (.ok look, s)) : d.stream.next = c.stream.next := by
  have hsame : ∀ {look : Option Token} {r : Stream}, c.stream.peek = (.ok look, r) →
      r.next = c.stream.next := fun h => (Stream.next_of_peek h).1
  cases he with
  | broken hp' =>
    rw [hp] at hp'
    cases hp'
  | skip hp hk => exact absurd rfl hv
  | shift hp hk hs ha hn => exact absurd rfl hv
  | reduce hp hk hs ha hr hg hn => exact absurd rfl hv
  | accept hp hk hs ha hn => exact hsame hp
  | reject hp hk ha he hn => exact hsame hp
  | stuck hp hk hs ha ho hn => exact hsame hp
  | lost hp hk hs ha hr hg hn => exact hsame hp

theorem locate_eq_reduction {l : Location} {f : Failure} {fault : ReductionFault}
    (h : locate l f = .reduction fault) : fault.place = some l := by
  unfold locate at h
  split at h
  · rw [← Failure.reduction.inj h]
  · next hno => exact absurd h (hno fault)

theorem Effect.place {fault : ReductionFault} (he : Effect m c (.failed (.reduction fault)) d)
    {look : Option Token} {s : Stream} (hp : c.stream.peek = (.ok look, s)) :
    fault.place = some c.stream.next.2.location := by
  cases he with
  | broken hp' =>
    rw [hp] at hp'
    cases hp'
  | stuck hp' hk hs ha ho hn =>
    rw [← Stream.location_peek hp']
    generalize hf : Failure.reduction fault = f at ho
    cases ho with
    | unknown label => cases hf
    | unregistered hl => cases hf
    | underflow hl hs => cases hf
    | refused hl hv =>
      cases hf
      rfl
    | failed hl hv => exact locate_eq_reduction hf.symm

/-- A step that does not go on leaves both stacks as they were, whatever they hold, unless it comes
to a reduction with no state to go to. If its stream did not fail, that still has the token looked
at and all behind it, and a value is refused at the place of this token. -/
theorem failed_step_leaves_state (m : Machine V) {eval : Int → List (Operand V) → Except Refusal V}
    {ss : List Signature} (hr : Rules.empty.defineAll eval ss = .ok m.rules) (c : Config V)
    (hv : (m.step c).1 ≠ .running) :
    ((¬ ∃ id e lhs arity x, m.Lost c id e lhs arity x) →
      (m.step c).2.values = c.values ∧ (m.step c).2.states = c.states) ∧
    (∀ id e lhs arity x, m.Lost c id e lhs arity x →
      (m.step c).1 = .failed (.config (.noGoto m.table.name e lhs)) ∧
        (m.step c).2.values = (c.values.drop arity).push (.nonterminal lhs x) ∧
        (m.step c).2.states = c.states.drop arity) ∧
    ∀ look, c.stream.peek.1 = .ok look →
      c.stream.next.1 = .ok look ∧
        (∀ n, (m.step c).2.stream.answers n = c.stream.answers n) ∧
        ∀ fault, (m.step c).1 = .failed (.reduction fault) →
          fault.place = some c.stream.next.2.location := by
  have he := step_effect (Rules.allProductions_defineAll hr) c
  refine ⟨fun hlost => (he.stacks hv).resolve_right hlost, fun _ _ _ _ _ => step_lost, ?_⟩
  intro look hlook
  have hp : c.stream.peek = (.ok look, c.stream.peek.2) := Prod.ext hlook rfl
  refine ⟨(Stream.next_of_peek hp).2, Stream.answers_of_next (he.next hv hp), ?_⟩
  intro fault hfault
  rw [hfault] at he
  exact he.place hp

/-- Two rules for a name: one refuses it, and the other one leads nowhere. -/
def unsuited : Machine String where
  table := { actions := [((0, "ident"), .reduce 1), ((1, "ident"), .reduce 2)], gotos := [] }
  rules :=
    ⟨[(1, .production "S" 1 fun _ => .error (.operands "refused")),
      (2, .production "T" 1 fun _ => .ok "given")]⟩

/-- One value, and more states than go with it. -/
def misaligned (top : Int) : Config String :=
  unsuited.start (.ofInputs [Input.tokens [.mark 3, .token ⟨"ident", "x"⟩] "in"])
    [.terminal ⟨"plus", "+"⟩] [4, 4, top]

theorem failed_step_leaves_state_misaligned :
    (unsuited.step (misaligned 0)).1 = .failed (.reduction ⟨1, "S", "refused", some ⟨"in", 3⟩⟩) ∧
      (unsuited.step (misaligned 0)).2.values = (misaligned 0).values ∧
      (unsuited.step (misaligned 0)).2.states = (misaligned 0).states ∧
      (unsuited.step (misaligned 1)).1 = .failed (.config (.noGoto "<table>" 4 "T")) ∧
      (∀ n, (unsuited.step (misaligned 1)).2.stream.answers n =
        (misaligned 1).stream.answers n) := by
  have hr : Rules.empty.defineAll
      (fun id _ => if id = 1 then .error (.operands "refused") else .ok "given")
      [⟨1, "S", 1⟩, ⟨2, "T", 1⟩] = .ok unsuited.rules := rfl
  have hrefused : (unsuited.step (misaligned 0)).1 =
      .failed (.reduction ⟨1, "S", "refused", some ⟨"in", 3⟩⟩) := by decide +kernel
  have hlost : (unsuited.step (misaligned 1)).1 =
      .failed (.config (.noGoto "<table>" 4 "T")) := by decide +kernel
  have h₀ := failed_step_leaves_state unsuited hr (misaligned 0) (by rw [hrefused]; simp)
  have h₁ := failed_step_leaves_state unsuited hr (misaligned 1) (by rw [hlost]; simp)
  have hstacks := h₀.1 <| by
    rintro ⟨id, e, lhs, arity, x, h⟩
    have hgoto := (h₀.2.1 id e lhs arity x h).1
    rw [hrefused] at hgoto
    cases hgoto
  have hlook : (misaligned 1).stream.peek.1.isOk = true := by decide +kernel
  cases hp : (misaligned 1).stream.peek.1 with
  | error f =>
    rw [hp] at hlook
    cases hlook
  | ok look => exact ⟨hrefused, hstacks.1, hstacks.2, hlost, (h₁.2.2 look hp).2.1⟩

end Machine

end ShiftReduce
