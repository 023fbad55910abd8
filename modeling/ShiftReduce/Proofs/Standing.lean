import ShiftReduce.Proofs.Delivery
import ShiftReduce.Proofs.Runs

/-! # Where a machine stands

The tokens that are passed over make no difference to where a machine is going. `Stands` leaves them
out, and says for each action of the table where a machine stands next or how its run ends.
-/

namespace ShiftReduce

/-! ## The rows of a table -/

namespace Table

def row (t : Table) (state : Int) : List (String × Action) :=
  (t.actions.filter (·.1.1 == state)).map fun e => (e.1.2, e.2)

theorem action?_eq_row (t : Table) (state : Int) (terminal : String) :
    t.action? state terminal = (t.row state).lookup terminal := by
  unfold action? row
  induction t.actions with
  | nil => rfl
  | cons e es ih =>
    obtain ⟨⟨s, k⟩, a⟩ := e
    rw [List.lookup_cons, List.filter_cons]
    by_cases hs : s = state
    · subst hs
      by_cases hk : terminal = k
      · subst hk
        simp
      · have hne : ((s, terminal) == (s, k)) = false := by simpa using hk
        have hne' : (terminal == k) = false := by simpa using hk
        simp [hne, hne', List.lookup_cons, ih]
    · have hne : ((state, terminal) == (s, k)) = false := by
        simpa using fun h _ => hs h.symm
      simp [hne, hs, ih]

theorem action?_eq_none {t : Table} {state : Int} {row : List (String × Action)}
    (hrow : t.row state = row) {terminal : String} (h : terminal ∉ row.map Prod.fst) :
    t.action? state terminal = none := by
  rw [action?_eq_row, hrow, List.lookup_eq_none_iff]
  intro e he
  rw [bne_iff_ne]
  rintro rfl
  exact h (List.mem_map_of_mem he)

end Table

namespace Machine

variable {V : Type} {m : Machine V}

/-! ## Stacks and tokens to come -/

/-- The tokens to come from a stream, but for those that are passed over. -/
def Upcoming (m : Machine V) (s : Stream) (us : List Token) : Prop :=
  ∃ ts, s.tokens = .ok ts ∧ m.unskipped (ts.map Prod.fst) = us

/-- The stacks of a machine, the top first, and the tokens to come. Nothing was reported yet. -/
structure Stands (m : Machine V) (c : Config V) (values : List (Symbol V)) (states : List Int)
    (us : List Token) : Prop where
  values : c.values = ⟨values⟩
  states : c.states = ⟨states⟩
  upcoming : m.Upcoming c.stream us
  accepted : c.accepted = false
  reports : c.reports = []

/-- A machine that stands at a token looks at it. -/
structure Faces (m : Machine V) (c : Config V) (values : List (Symbol V)) (states : List Int)
    (t : Token) (us : List Token) (s : Stream) : Prop extends
    Stands m c values states (t :: us) where
  peek : c.stream.peek = (.ok (some t), s)
  kept : m.skip.contains t.kind = false
  now : m.Upcoming s (t :: us)
  next : m.Upcoming s.next.2 us

variable {c : Config V} {values : List (Symbol V)} {states : List Int} {t : Token}
  {us : List Token}

theorem Stands.faces (h : m.Stands c values states (t :: us)) :
    ∃ d s, m.Leads c d ∧ m.Faces d values states t us s := by
  obtain ⟨ts, hts, hus⟩ := h.upcoming
  induction ts generalizing c with
  | nil => simp at hus
  | cons x xs ih =>
    obtain ⟨s, hp, hs, -, hnext⟩ := Stream.peek_of_cons hts
    cases hk : m.skip.contains x.1.kind with
    | true =>
      rw [List.map_cons, unskipped_cons_of_skip hk] at hus
      have hd : m.Stands { c with stream := s.next.2 } values states (t :: us) :=
        ⟨h.values, h.states, ⟨xs, hnext, hus⟩, h.accepted, h.reports⟩
      obtain ⟨d, s', hlead, hface⟩ := ih hd hnext hus
      exact ⟨d, s', .step (step_skip hp hk) hlead, hface⟩
    | false =>
      have hnow : m.Upcoming s (t :: us) := ⟨x :: xs, hs, hus⟩
      rw [List.map_cons, unskipped_cons_of_not_skip hk, List.cons.injEq] at hus
      obtain ⟨rfl, hus⟩ := hus
      exact ⟨c, s, .refl c, h, hp, hk, hnow, xs, hnext, hus⟩

theorem Stands.shift {p q : Int} (h : m.Stands c values (p :: states) (t :: us))
    (ha : m.table.action? p t.kind = some (.shift q)) :
    ∃ d, m.Leads c d ∧ m.Stands d (.terminal t :: values) (q :: p :: states) us := by
  obtain ⟨e, s, hlead, hf⟩ := h.faces
  obtain ⟨notes, hn, hstep⟩ := step_action hf.peek hf.kept (by rw [hf.states]; rfl) ha
  refine ⟨_, hlead.trans (.single hstep), ?_, ?_, hf.next, hf.accepted, ?_⟩
  · simp [hf.values, Stack.push]
  · simp [hf.states, Stack.push]
  · rw [← hf.reports]
    exact Traced.reports hn

theorem Stands.reduce {p q e id : Int} {lhs : String} {arity : Nat} {v : V}
    {eval : List (Operand V) → Except Refusal V}
    (h : m.Stands c values (p :: states) (t :: us))
    (ha : m.table.action? p t.kind = some (.reduce id))
    (hl : m.rules.lookup id = some (.production lhs arity eval)) (hlen : arity ≤ values.length)
    (hv : eval ((values.take arity).reverse.map Symbol.operand) = .ok v)
    (he : ((p :: states).drop arity).head? = some e) (hg : m.table.goto? e lhs = some q) :
    ∃ d, m.Leads c d ∧ m.Stands d (.nonterminal lhs v :: values.drop arity)
      (q :: (p :: states).drop arity) (t :: us) := by
  obtain ⟨b, s, hlead, hf⟩ := h.faces
  obtain ⟨notes, hn, hstep⟩ := step_action hf.peek hf.kept (by rw [hf.states]; rfl) ha
  have hred : Reduction m { b with stream := s, notes := notes } id lhs arity e v := by
    refine ⟨⟨eval, hl, ?_⟩, ?_, ?_⟩
    · simpa [hf.values, Stack.top] using hv
    · simpa [hf.values, Stack.size] using hlen
    · simpa [hf.states, Stack.drop, Stack.peek] using he
  obtain ⟨notes', hn', hreduce⟩ := reduce_goto hred hg
  refine ⟨_, hlead.trans (.single (hstep.trans hreduce)), ?_, ?_, hf.now, hf.accepted, ?_⟩
  · simp [hf.values, Stack.push, Stack.drop]
  · simp [hf.states, Stack.push, Stack.drop]
  · rw [← hf.reports]
    exact Traced.reports (hn.trans hn')

theorem Stands.refuse {p id : Int} {lhs reason : String} {arity : Nat}
    {eval : List (Operand V) → Except Refusal V}
    (h : m.Stands c values (p :: states) (t :: us))
    (ha : m.table.action? p t.kind = some (.reduce id))
    (hl : m.rules.lookup id = some (.production lhs arity eval)) (hlen : arity ≤ values.length)
    (hlen' : arity ≤ states.length)
    (hv : eval ((values.take arity).reverse.map Symbol.operand) = .error (.operands reason)) :
    ∃ d f, m.Ends c (.error (.reduction f)) d := by
  obtain ⟨b, s, hlead, hf⟩ := h.faces
  obtain ⟨notes, hn, hstep⟩ := step_action hf.peek hf.kept (by rw [hf.states]; rfl) ha
  have hreduce := reduce_refused (c := { b with stream := s, notes := notes }) hl
    (by simpa [hf.values, Stack.size] using hlen)
    (by simp only [hf.states, Stack.size, List.length_cons]; omega)
    (by simpa [hf.values, Stack.top] using hv)
  exact ⟨_, _, hlead.ends (.of_failed (hstep.trans hreduce))⟩

theorem Stands.accept {p : Int} {x : Symbol V} (h : m.Stands c [x] (p :: states) (t :: us))
    (ha : m.table.action? p t.kind = some .accept) :
    ∃ d, m.Ends c (.ok (.accepted x.operand)) d := by
  obtain ⟨b, s, hlead, hf⟩ := h.faces
  obtain ⟨notes, hn, hstep⟩ := step_action hf.peek hf.kept (by rw [hf.states]; rfl) ha
  have hend := Ends.of_halted hstep
  simp only [outcome, hf.values, if_true] at hend
  exact ⟨_, hlead.ends hend⟩

/-- A run ends with a syntax error, and with no other report. -/
def Rejects (m : Machine V) (c : Config V) : Prop :=
  ∃ d e, m.Ends c (.ok (.rejected (some e))) d ∧ d.reports = [e]

theorem Leads.rejects {d : Config V} (h : m.Leads c d) (hd : m.Rejects d) : m.Rejects c := by
  obtain ⟨b, e, hend, hr⟩ := hd
  exact ⟨b, e, h.ends hend, hr⟩

theorem Stands.reject {p : Int} (h : m.Stands c values (p :: states) (t :: us))
    (ha : m.table.action? p t.kind = none) : m.Rejects c := by
  obtain ⟨b, s, hlead, hf⟩ := h.faces
  have hs : b.states.peek = some p := by rw [hf.states]; rfl
  obtain ⟨notes, e, hn, -, hstep⟩ :=
    step_reject hf.peek (by simpa using hf.kept) ((actionFor_some m hs).trans ha)
  have hend := Ends.of_halted hstep
  simp only [outcome, hf.accepted] at hend
  refine ⟨_, e, hlead.ends hend, ?_⟩
  have hquiet : ({ b with notes := notes } : Config V).reports = [] := by
    rw [← hf.reports]
    exact Traced.reports hn
  simp only [Config.reports] at hquiet ⊢
  simp [List.filterMap_append, hquiet]

theorem Stands.expect {p q : Int} {k : String} {z : Token} {rest : List Token}
    (h : m.Stands c values (p :: states) (us ++ z :: rest))
    (hrow : m.table.row p = [(k, .shift q)]) (hz : z.kind ≠ k) :
    m.Rejects c ∨ ∃ t us' d, us = t :: us' ∧ t.kind = k ∧ m.Leads c d ∧
      m.Stands d (.terminal t :: values) (q :: p :: states) (us' ++ z :: rest) := by
  cases us with
  | nil => exact Or.inl (h.reject (Table.action?_eq_none hrow (by simpa using hz)))
  | cons t us =>
    by_cases ht : t.kind = k
    · have ha : m.table.action? p t.kind = some (.shift q) := by
        rw [Table.action?_eq_row, hrow, ht, List.lookup_cons, beq_self_eq_true]
      obtain ⟨d, hlead, hd⟩ := h.shift ha
      exact Or.inr ⟨t, us, d, rfl, ht, hlead, hd⟩
    · exact Or.inl (h.reject (Table.action?_eq_none hrow (by simpa using ht)))

end Machine

end ShiftReduce
