import ShiftReduce.Machine

/-! # What a step can do

`Effect` lists every way in which a step of a machine can end, when its rules are productions, with
the configuration that it leaves. What all runs keep is shown from it, one case at a time.
-/

namespace ShiftReduce

/-! ## Rules that are all productions -/

structure Signature where
  id : Int
  lhs : String
  arity : Int
deriving DecidableEq, Repr

namespace Rules

variable {V : Type}

/-- Defines productions one after the other. `eval` gives the value of each. -/
def defineAll (eval : Int → List (Operand V) → Except Refusal V) (rs : Rules V) :
    List Signature → Except Failure (Rules V)
  | [] => .ok rs
  | s :: ss =>
    match rs.define s.id s.lhs s.arity (eval s.id) with
    | .error f => .error f
    | .ok rs => rs.defineAll eval ss

def AllProductions (rs : Rules V) : Prop :=
  ∀ id r, rs.lookup id = some r → ∃ lhs arity eval, r = .production lhs arity eval

theorem allProductions_of_entries {rs : Rules V}
    (h : ∀ e ∈ rs.entries, ∃ lhs arity eval, e.2 = .production lhs arity eval) :
    rs.AllProductions := by
  intro id r hl
  obtain ⟨l₁, l₂, he, -⟩ := List.lookup_eq_some_iff.mp hl
  exact h (id, r) (by simp [he])

theorem define_eq_ok {rs rs' : Rules V} {id arity : Int} {lhs : String}
    {eval : List (Operand V) → Except Refusal V} (h : rs.define id lhs arity eval = .ok rs') :
    0 ≤ arity ∧ rs'.entries = rs.entries ++ [(id, .production lhs arity.toNat eval)] := by
  unfold define register at h
  split at h
  · simp at h
  · next ha =>
    split at h
    · simp at h
    · exact ⟨by omega, by rw [← Except.ok.inj h]⟩

theorem lookup_eq_none_of_define {rs rs' : Rules V} {id arity : Int} {lhs : String}
    {eval : List (Operand V) → Except Refusal V} (h : rs.define id lhs arity eval = .ok rs') :
    rs.lookup id = none := by
  unfold define register at h
  split at h
  · simp at h
  · split at h
    · simp at h
    · next hfree => simpa [contains] using hfree

theorem mem_defineAll {eval : Int → List (Operand V) → Except Refusal V} {ss : List Signature}
    {rs rs' : Rules V} (h : rs.defineAll eval ss = .ok rs') {e : Int × Rule V}
    (he : e ∈ rs'.entries) :
    e ∈ rs.entries ∨
      ∃ s ∈ ss, 0 ≤ s.arity ∧ e = (s.id, .production s.lhs s.arity.toNat (eval s.id)) := by
  induction ss generalizing rs with
  | nil =>
    obtain rfl := Except.ok.inj h
    exact Or.inl he
  | cons s ss ih =>
    unfold defineAll at h
    split at h
    · simp at h
    · next q hq =>
      obtain ⟨ha, hq⟩ := define_eq_ok hq
      rcases ih h with hmem | ⟨s', hs', ha', rfl⟩
      · rw [hq, List.mem_append, List.mem_singleton] at hmem
        rcases hmem with hmem | rfl
        · exact Or.inl hmem
        · exact Or.inr ⟨s, by simp, ha, rfl⟩
      · exact Or.inr ⟨s', by simp [hs'], ha', rfl⟩

theorem lookup_defineAll {eval : Int → List (Operand V) → Except Refusal V} {ss : List Signature}
    {rs : Rules V} (h : empty.defineAll eval ss = .ok rs) {id : Int} {r : Rule V}
    (hl : rs.lookup id = some r) :
    ∃ s ∈ ss, 0 ≤ s.arity ∧ s.id = id ∧ r = .production s.lhs s.arity.toNat (eval id) := by
  have hmem : (id, r) ∈ rs.entries := by
    obtain ⟨l₁, l₂, he, -⟩ := List.lookup_eq_some_iff.mp hl
    simp [he]
  rcases mem_defineAll h hmem with hmem | ⟨s, hs, ha, he⟩
  · simp [empty] at hmem
  · rw [Prod.mk.injEq] at he
    obtain ⟨rfl, rfl⟩ := he
    exact ⟨s, hs, ha, rfl, rfl⟩

theorem lookup_define {rs rs' : Rules V} {id arity : Int} {lhs : String}
    {eval : List (Operand V) → Except Refusal V} (h : rs.define id lhs arity eval = .ok rs')
    (id' : Int) :
    rs'.lookup id' = (rs.lookup id').or
      (if id' = id then some (.production lhs arity.toNat eval) else none) := by
  unfold lookup
  rw [(define_eq_ok h).2, List.lookup_append]
  congr 1
  by_cases hid : id' = id
  · simp [hid]
  · simp [List.lookup_cons, hid, beq_eq_false_iff_ne.mpr hid]

theorem lookup_defineAll_of_lookup {eval : Int → List (Operand V) → Except Refusal V}
    {ss : List Signature} {rs rs' : Rules V} (h : rs.defineAll eval ss = .ok rs') {id : Int}
    {r : Rule V} (hl : rs.lookup id = some r) : rs'.lookup id = some r := by
  induction ss generalizing rs with
  | nil =>
    obtain rfl := Except.ok.inj h
    exact hl
  | cons s ss ih =>
    unfold defineAll at h
    split at h
    · simp at h
    · next q hq => exact ih h (by rw [lookup_define hq, hl, Option.some_or])

theorem lookup_defineAll_of_mem {eval : Int → List (Operand V) → Except Refusal V}
    {ss : List Signature} {rs rs' : Rules V} (h : rs.defineAll eval ss = .ok rs') {s : Signature}
    (hs : s ∈ ss) : rs'.lookup s.id = some (.production s.lhs s.arity.toNat (eval s.id)) := by
  induction ss generalizing rs with
  | nil => simp at hs
  | cons s' ss ih =>
    unfold defineAll at h
    split at h
    · simp at h
    · next q hq =>
      rcases List.mem_cons.mp hs with rfl | hs
      · refine lookup_defineAll_of_lookup h ?_
        rw [lookup_define hq, lookup_eq_none_of_define hq]
        simp
      · exact ih h hs

theorem allProductions_defineAll {eval : Int → List (Operand V) → Except Refusal V}
    {ss : List Signature} {rs : Rules V} (h : empty.defineAll eval ss = .ok rs) :
    rs.AllProductions := by
  intro id r hl
  obtain ⟨s, -, -, -, rfl⟩ := lookup_defineAll h hl
  exact ⟨_, _, _, rfl⟩

end Rules

/-! ## Stacks -/

namespace Stack

variable {α : Type}

@[simp]
theorem peek_push (s : Stack α) (x : α) : (s.push x).peek = some x := rfl

@[simp]
theorem size_drop (s : Stack α) (n : Nat) : (s.drop n).size = s.size - n :=
  List.length_drop

theorem length_top (s : Stack α) (n : Nat) : (s.top n).length = min n s.size := by
  simp [top, size]

theorem mem_of_mem_top {s : Stack α} {n : Nat} {x : α} (h : x ∈ s.top n) : x ∈ s.items :=
  List.mem_of_mem_take (List.mem_reverse.mp h)

theorem exists_peek {s : Stack α} (h : 0 < s.size) : ∃ x, s.peek = some x := by
  obtain ⟨x, xs, hx⟩ := List.exists_cons_of_length_pos h
  exact ⟨x, by simp [peek, hx]⟩

theorem lt_size_of_peek_drop {s : Stack α} {n : Nat} {x : α} (h : (s.drop n).peek = some x) :
    n < s.size := by
  refine Nat.lt_of_not_le fun hn => ?_
  unfold peek drop at h
  rw [List.drop_eq_nil_of_le hn] at h
  simp at h

end Stack

/-! ## Traces -/

/-- Notes to which nothing but traces was added. -/
def Traced (old new : List Note) : Prop := ∃ texts : List String, new = texts.map Note.trace ++ old

theorem Traced.refl (notes : List Note) : Traced notes notes := ⟨[], rfl⟩

theorem Traced.trace {old new : List Note} (h : Traced old new) (text : String) :
    Traced old (.trace text :: new) := by
  obtain ⟨texts, rfl⟩ := h
  exact ⟨text :: texts, rfl⟩

theorem Traced.trans {old mid new : List Note} (h : Traced old mid) (h' : Traced mid new) :
    Traced old new := by
  obtain ⟨texts, rfl⟩ := h
  obtain ⟨texts', rfl⟩ := h'
  exact ⟨texts' ++ texts, by simp⟩

theorem Traced.reports {V : Type} {c d : Config V} (h : Traced c.notes d.notes) :
    d.reports = c.reports := by
  obtain ⟨texts, h⟩ := h
  simp only [Config.reports, h, List.reverse_append, List.filterMap_append]
  rw [List.append_right_eq_self, List.filterMap_eq_nil_iff]
  intro n hn
  simp only [List.mem_reverse, List.mem_map] at hn
  obtain ⟨text, -, rfl⟩ := hn
  rfl

namespace Machine

variable {V : Type} {m : Machine V} {c : Config V}

theorem traced_eq (m : Machine V) (c : Config V) (text : String) {old : List Note}
    (h : Traced old c.notes) :
    ∃ notes, m.traced c text = { c with notes := notes } ∧ Traced old notes := by
  unfold traced
  split
  · exact ⟨_, rfl, h.trace text⟩
  · exact ⟨_, rfl, h⟩

/-! ## One step -/

/-- Why a machine cannot do what its table says. -/
inductive Obstacle (m : Machine V) (c : Config V) : Action → Failure → Prop
  | unknown (label : Label) : Obstacle m c (.unknown label) (.config (.unknownAction label))
  | unregistered {id : Int} (hl : m.rules.lookup id = none) :
      Obstacle m c (.reduce id) (.config (.unregistered m.table.name [id]))
  | underflow {id : Int} {lhs : String} {arity : Nat}
      {eval : List (Operand V) → Except Refusal V}
      (hl : m.rules.lookup id = some (.production lhs arity eval))
      (hs : c.values.size < arity ∨ c.states.size < arity + 1) :
      Obstacle m c (.reduce id) (.config (.underflow id))
  | refused {id : Int} {lhs reason : String} {arity : Nat}
      {eval : List (Operand V) → Except Refusal V}
      (hl : m.rules.lookup id = some (.production lhs arity eval))
      (hv : eval ((c.values.top arity).map Symbol.operand) = .error (.operands reason)) :
      Obstacle m c (.reduce id) (.reduction ⟨id, lhs, reason, some c.stream.location⟩)
  | failed {id : Int} {lhs : String} {arity : Nat} {f : Failure}
      {eval : List (Operand V) → Except Refusal V}
      (hl : m.rules.lookup id = some (.production lhs arity eval))
      (hv : eval ((c.values.top arity).map Symbol.operand) = .error (.failure f)) :
      Obstacle m c (.reduce id) (locate c.stream.location f)

/-- A reduction that has a value: the rule, the state laid bare, and the value. -/
structure Reduction (m : Machine V) (c : Config V) (id : Int) (lhs : String) (arity : Nat)
    (exposed : Int) (v : V) : Prop where
  rule : ∃ eval, m.rules.lookup id = some (.production lhs arity eval) ∧
    eval ((c.values.top arity).map Symbol.operand) = .ok v
  values : arity ≤ c.values.size
  states : (c.states.drop arity).peek = some exposed

/-- How a step ends, and the configuration that it leaves. -/
inductive Effect (m : Machine V) (c : Config V) : Verdict → Config V → Prop
  | broken {f : Failure} {s : Stream} (hp : c.stream.peek = (.error f, s)) :
      Effect m c (.failed f) { c with stream := s }
  | skip {t : Token} {s : Stream} (hp : c.stream.peek = (.ok (some t), s))
      (hk : m.skip.contains t.kind = true) :
      Effect m c .running { c with stream := s.next.2 }
  | shift {t : Token} {s : Stream} {p q : Int} {notes : List Note}
      (hp : c.stream.peek = (.ok (some t), s)) (hk : m.skip.contains t.kind = false)
      (hs : c.states.peek = some p) (ha : m.table.action? p t.kind = some (.shift q))
      (hn : Traced c.notes notes) :
      Effect m c .running
        { c with
          values := c.values.push (.terminal t)
          states := c.states.push q
          stream := s.next.2
          notes := notes }
  | reduce {t : Token} {s : Stream} {p q e id : Int} {lhs : String} {arity : Nat} {v : V}
      {notes : List Note}
      (hp : c.stream.peek = (.ok (some t), s)) (hk : m.skip.contains t.kind = false)
      (hs : c.states.peek = some p) (ha : m.table.action? p t.kind = some (.reduce id))
      (hr : Reduction m c id lhs arity e v) (hg : m.table.goto? e lhs = some q)
      (hn : Traced c.notes notes) :
      Effect m c .running
        { c with
          values := (c.values.drop arity).push (.nonterminal lhs v)
          states := (c.states.drop arity).push q
          stream := s
          notes := notes }
  | accept {t : Token} {s : Stream} {p : Int} {notes : List Note}
      (hp : c.stream.peek = (.ok (some t), s)) (hk : m.skip.contains t.kind = false)
      (hs : c.states.peek = some p) (ha : m.table.action? p t.kind = some .accept)
      (hn : Traced c.notes notes) :
      Effect m c .halted { c with stream := s, accepted := true, notes := notes }
  | reject {look : Option Token} {s : Stream} {e : SyntaxError} {notes : List Note}
      (hp : c.stream.peek = (.ok look, s)) (hk : ∀ t ∈ look, m.skip.contains t.kind = false)
      (ha : m.actionFor c.states.peek look = none)
      (he : e = m.syntaxError { c with stream := s } c.states.peek look)
      (hn : Traced c.notes notes) :
      Effect m c .halted { c with stream := s, error := some e, notes := .report e :: notes }
  | stuck {t : Token} {s : Stream} {p : Int} {action : Action} {f : Failure} {notes : List Note}
      (hp : c.stream.peek = (.ok (some t), s)) (hk : m.skip.contains t.kind = false)
      (hs : c.states.peek = some p) (ha : m.table.action? p t.kind = some action)
      (ho : Obstacle m { c with stream := s } action f) (hn : Traced c.notes notes) :
      Effect m c (.failed f) { c with stream := s, notes := notes }
  | lost {t : Token} {s : Stream} {p e id : Int} {lhs : String} {arity : Nat} {v : V}
      {notes : List Note}
      (hp : c.stream.peek = (.ok (some t), s)) (hk : m.skip.contains t.kind = false)
      (hs : c.states.peek = some p) (ha : m.table.action? p t.kind = some (.reduce id))
      (hr : Reduction m c id lhs arity e v) (hg : m.table.goto? e lhs = none)
      (hn : Traced c.notes notes) :
      Effect m c (.failed (.config (.noGoto m.table.name e lhs)))
        { c with
          values := (c.values.drop arity).push (.nonterminal lhs v)
          states := c.states.drop arity
          stream := s
          notes := notes }

theorem step_skip {t : Token} {s : Stream} (hp : c.stream.peek = (.ok (some t), s))
    (hk : m.skip.contains t.kind = true) :
    m.step c = (.running, { c with stream := s.next.2 }) := by
  simp [step, hp, List.contains_iff_mem.mp hk]

theorem step_act {look : Option Token} {s : Stream} (hp : c.stream.peek = (.ok look, s))
    (hk : ∀ t ∈ look, m.skip.contains t.kind = false) :
    m.step c = m.act { c with stream := s } c.states.peek look := by
  have hk' : (look.map fun t => m.skip.contains t.kind).getD false = false := by
    cases look with
    | none => rfl
    | some t => exact hk t rfl
  simp only [step, hp, hk']
  rfl

theorem act_traced (m : Machine V) (c : Config V) (state : Option Int) (look : Option Token) :
    ∃ notes, Traced c.notes notes ∧
      m.traced c (stepText state look (m.actionFor state look)) = { c with notes := notes } := by
  obtain ⟨notes, ht, hn⟩ := traced_eq m c (stepText state look (m.actionFor state look)) (.refl _)
  exact ⟨notes, hn, ht⟩

theorem actionFor_some (m : Machine V) {t : Token} {p : Int} (hs : c.states.peek = some p) :
    m.actionFor c.states.peek (some t) = m.table.action? p t.kind := by
  simp [actionFor, hs]

theorem step_action {t : Token} {s : Stream} {p : Int} {action : Action}
    (hp : c.stream.peek = (.ok (some t), s)) (hk : m.skip.contains t.kind = false)
    (hs : c.states.peek = some p) (ha : m.table.action? p t.kind = some action) :
    ∃ notes, Traced c.notes notes ∧ m.step c =
      match action with
      | .shift q => (.running,
          { c with
            values := c.values.push (.terminal t)
            states := c.states.push q
            stream := s.next.2
            notes := notes })
      | .reduce id => m.reduce { c with stream := s, notes := notes } id
      | .accept => (.halted, { c with stream := s, accepted := true, notes := notes })
      | .unknown label =>
        (.failed (.config (.unknownAction label)), { c with stream := s, notes := notes }) := by
  have hact : m.actionFor c.states.peek (some t) = some action := (actionFor_some m hs).trans ha
  obtain ⟨notes, hn, ht⟩ := act_traced m { c with stream := s } c.states.peek (some t)
  rw [hact] at ht
  refine ⟨notes, hn, ?_⟩
  rw [step_act hp (by simpa using hk)]
  cases action <;> simp only [act, hact, ht]

theorem step_reject {look : Option Token} {s : Stream} (hp : c.stream.peek = (.ok look, s))
    (hk : ∀ t ∈ look, m.skip.contains t.kind = false)
    (ha : m.actionFor c.states.peek look = none) :
    ∃ notes e, Traced c.notes notes ∧ e = m.syntaxError { c with stream := s } c.states.peek look ∧
      m.step c =
        (.halted, { c with stream := s, error := some e, notes := .report e :: notes }) := by
  obtain ⟨notes, hn, ht⟩ := act_traced m { c with stream := s } c.states.peek look
  refine ⟨notes, _, hn, rfl, ?_⟩
  rw [step_act hp hk]
  simp only [act, ht]
  rw [ha]
  rfl

theorem reduce_goto {id e q : Int} {lhs : String} {arity : Nat} {v : V}
    (hr : Reduction m c id lhs arity e v) (hg : m.table.goto? e lhs = some q) :
    ∃ notes, Traced c.notes notes ∧ m.reduce c id = (.running,
      { c with
        values := (c.values.drop arity).push (.nonterminal lhs v)
        states := (c.states.drop arity).push q
        notes := notes }) := by
  obtain ⟨eval, hl, hv⟩ := hr.rule
  have hshort : ¬ (c.values.size < arity ∨ c.states.size < arity + 1) := by
    have := hr.values
    have := Stack.lt_size_of_peek_drop hr.states
    omega
  obtain ⟨notes, ht, hn⟩ := traced_eq m
    { c with
      values := (c.values.drop arity).push (.nonterminal lhs v)
      states := c.states.drop arity } s!"reduce r{id} -> {lhs}, goto {q}" (.refl _)
  refine ⟨notes, hn, ?_⟩
  simp only [reduce, hl, Rule.reduce, hshort, if_false, hv, hr.states, Stack.peek_push, Symbol.name,
    hg, ht]

theorem reduce_refused {id : Int} {lhs reason : String} {arity : Nat}
    {eval : List (Operand V) → Except Refusal V}
    (hl : m.rules.lookup id = some (.production lhs arity eval))
    (hvalues : arity ≤ c.values.size) (hstates : arity < c.states.size)
    (hv : eval ((c.values.top arity).map Symbol.operand) = .error (.operands reason)) :
    m.reduce c id = (.failed (.reduction ⟨id, lhs, reason, some c.stream.location⟩), c) := by
  have hshort : ¬ (c.values.size < arity ∨ c.states.size < arity + 1) := by omega
  simp only [reduce, hl, Rule.reduce, hshort, if_false, hv, locate]

theorem reduce_effect (hr : m.rules.AllProductions) {t : Token} {s : Stream} {p id : Int}
    {notes : List Note} (hp : c.stream.peek = (.ok (some t), s))
    (hk : m.skip.contains t.kind = false) (hs : c.states.peek = some p)
    (ha : m.table.action? p t.kind = some (.reduce id)) (hn : Traced c.notes notes) :
    Effect m c (m.reduce { c with stream := s, notes := notes } id).1
      (m.reduce { c with stream := s, notes := notes } id).2 := by
  cases hl : m.rules.lookup id with
  | none =>
    simp only [reduce, hl]
    exact .stuck hp hk hs ha (.unregistered hl) hn
  | some rule =>
    obtain ⟨lhs, arity, eval, rfl⟩ := hr id rule hl
    by_cases hshort : c.values.size < arity ∨ c.states.size < arity + 1
    · simp only [reduce, hl, Rule.reduce, hshort, if_true]
      exact .stuck hp hk hs ha (.underflow hl hshort) hn
    · cases hv : eval ((c.values.top arity).map Symbol.operand) with
      | error r =>
        simp only [reduce, hl, Rule.reduce, hshort, if_false, hv]
        cases r with
        | operands reason => exact .stuck hp hk hs ha (.refused hl hv) hn
        | failure f => exact .stuck hp hk hs ha (.failed hl hv) hn
      | ok v =>
        obtain ⟨e, he⟩ : ∃ e, (c.states.drop arity).peek = some e :=
          Stack.exists_peek (by rw [Stack.size_drop]; omega)
        have hred : Reduction m c id lhs arity e v := ⟨⟨eval, hl, hv⟩, by omega, he⟩
        cases hg : m.table.goto? e lhs with
        | none =>
          simp only [reduce, hl, Rule.reduce, hshort, if_false, hv, he, Stack.peek_push,
            Symbol.name, hg]
          exact .lost hp hk hs ha hred hg hn
        | some q =>
          have hred' : Reduction m { c with stream := s, notes := notes } id lhs arity e v :=
            ⟨hred.rule, hred.values, hred.states⟩
          obtain ⟨notes', hn', heq⟩ := reduce_goto hred' hg
          rw [heq]
          exact .reduce hp hk hs ha hred hg (hn.trans hn')

theorem step_effect (hr : m.rules.AllProductions) (c : Config V) :
    Effect m c (m.step c).1 (m.step c).2 := by
  rcases hp : c.stream.peek with ⟨_ | look, s⟩
  · simp only [step, hp]
    exact .broken hp
  · by_cases hk : ∀ t ∈ look, m.skip.contains t.kind = false
    · cases ha : m.actionFor c.states.peek look with
      | none =>
        obtain ⟨notes, e, hn, he, hstep⟩ := step_reject hp hk ha
        rw [hstep]
        exact .reject hp hk ha he hn
      | some action =>
        obtain ⟨p, hs, t, rfl, hact⟩ : ∃ p, c.states.peek = some p ∧ ∃ t, look = some t ∧
            m.table.action? p t.kind = some action := by
          simpa [actionFor, Option.bind_eq_some_iff] using ha
        have hkt := hk t rfl
        obtain ⟨notes, hn, hstep⟩ := step_action hp hkt hs hact
        rw [hstep]
        cases action with
        | shift q => exact .shift hp hkt hs hact hn
        | reduce id => exact reduce_effect hr hp hkt hs hact hn
        | accept => exact .accept hp hkt hs hact hn
        | unknown label => exact .stuck hp hkt hs hact (.unknown label) hn
    · obtain ⟨t, rfl, hskip⟩ : ∃ t, look = some t ∧ m.skip.contains t.kind = true := by
        simpa [Classical.not_forall] using hk
      rw [step_skip hp hskip]
      exact .skip hp hskip

end Machine

end ShiftReduce
