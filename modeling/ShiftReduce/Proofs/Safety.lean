import ShiftReduce.Proofs.ContextFree
import ShiftReduce.Proofs.Descent
import ShiftReduce.Proofs.Paths
import ShiftReduce.Proofs.StreamRefinement

/-! # Tables that go with a grammar

A table goes with a grammar if every way back from a state that reduces spells the right side of the
production. `Table.fits` checks this on the links of the table, of which there are finitely many, and
so for stacks of any depth. A machine with such a table never finds its stacks too short or without a
state to go to, and the symbols on its stack derive the tokens that it has read.
-/

namespace ShiftReduce

variable {V : Type}

/-! ## The way back -/

namespace Table

/-- A path, with its last state and its last symbol first. -/
inductive Chain (t : Table) : List Int → List (Symbol V) → Prop
  | start : Chain t [t.start] []
  | link {p q : Int} {ss : List Int} {x : Symbol V} {xs : List (Symbol V)}
      (h : Chain t (p :: ss) xs) (hl : t.Link p x q) : Chain t (q :: p :: ss) (x :: xs)

variable {t : Table} {states ss : List Int} {symbols : List (Symbol V)} {s : Int}
  {marks : List Mark} {ok : Int → Bool}

theorem IsPath.chain (h : t.IsPath states.reverse symbols.reverse) : t.Chain states symbols := by
  induction symbols generalizing states with
  | nil =>
    obtain ⟨q, rfl⟩ := List.length_eq_one_iff.mp (by simpa using h.length)
    have hq : q = t.start := by simpa using h.start
    rw [hq]
    exact .start
  | cons x xs ih =>
    have hlen : states.length = xs.length + 2 := by simpa using h.length
    obtain ⟨q, states, rfl⟩ := List.exists_cons_of_length_eq_add_one hlen
    have hlen : states.length = xs.length + 1 := by simpa using hlen
    obtain ⟨p, ss, rfl⟩ := List.exists_cons_of_length_eq_add_one hlen
    have hlen : ss.length = xs.length := by simpa using hlen
    simp only [List.reverse_cons] at h
    obtain ⟨p', q', hp, hq, hl⟩ := h.link xs.length x (by simp)
    obtain rfl : p = p' := by simpa [← hlen] using hp
    obtain rfl : q = q' := by simpa [← hlen] using hq
    refine .link (ih ?_) hl
    have hback := h.take (n := xs.length) (by simp)
    rw [List.take_left' (by simp [hlen]), List.take_left' (by simp)] at hback
    rwa [List.reverse_cons]

/-- Every step from one state to another, with the symbol that leads there. -/
def links (t : Table) : List (Int × Mark × Int) :=
  let shift? : Table.Key × Action → Option (Int × Mark × Int)
    | ((p, kind), .shift q) => some (p, .terminal kind, q)
    | _ => none
  t.actions.filterMap shift? ++ t.gotos.map fun e => (e.1.1, .nonterminal e.1.2, e.2)

theorem mem_actions {kind : String} {a : Action} (h : t.action? s kind = some a) :
    ((s, kind), a) ∈ t.actions := by
  obtain ⟨l₁, l₂, he, -⟩ := List.lookup_eq_some_iff.mp h
  simp [he]

theorem mem_gotos {name : String} {q : Int} (h : t.goto? s name = some q) :
    ((s, name), q) ∈ t.gotos := by
  obtain ⟨l₁, l₂, he, -⟩ := List.lookup_eq_some_iff.mp h
  simp [he]

theorem Link.mem_links {p q : Int} {x : Symbol V} (h : t.Link p x q) :
    (p, x.mark, q) ∈ t.links := by
  unfold links
  rw [List.mem_append]
  cases x with
  | terminal token =>
    exact Or.inl (List.mem_filterMap.mpr ⟨_, mem_actions h, rfl⟩)
  | nonterminal name v =>
    exact Or.inr (List.mem_map.mpr ⟨_, mem_gotos h, rfl⟩)

/-- Whether all ways back from a state spell the marks, the last one first, and end in a state that
is `ok`. -/
def backs (t : Table) (ok : Int → Bool) : List Mark → Int → Bool
  | [], s => ok s
  | x :: xs, s =>
    s != t.start && t.links.all fun l => l.2.2 != s || (l.2.1 == x && t.backs ok xs l.1)

theorem Chain.back (h : t.Chain (s :: ss) symbols) (hb : t.backs ok marks s = true) :
    ∃ e ss', (s :: ss).drop marks.length = e :: ss' ∧ ok e = true ∧
      (symbols.take marks.length).map Symbol.mark = marks ∧
      t.Chain (e :: ss') (symbols.drop marks.length) := by
  induction marks generalizing s ss symbols with
  | nil => exact ⟨s, ss, rfl, hb, by simp, h⟩
  | cons x xs ih =>
    simp only [backs, Bool.and_eq_true, bne_iff_ne, List.all_eq_true, Bool.or_eq_true,
      beq_iff_eq] at hb
    obtain ⟨hstart, hlinks⟩ := hb
    cases h with
    | start => exact absurd rfl hstart
    | link h hl =>
      obtain hne | ⟨hmark, hback⟩ := hlinks _ hl.mem_links
      · exact absurd rfl hne
      · obtain ⟨e, ss', hdrop, he, hmarks, hchain⟩ := ih h hback
        refine ⟨e, ss', hdrop, he, ?_, hchain⟩
        rw [List.length_cons, List.take_succ_cons, List.map_cons, hmarks]
        exact congrArg (· :: xs) hmark

/-- A state that only the start leads to, where nothing leads to the start. -/
def isFirst (t : Table) (s : Int) : Bool := s == t.start && t.links.all (·.2.2 != t.start)

theorem Chain.eq_nil (h : t.Chain (s :: ss) symbols) (hf : t.isFirst s = true) : symbols = [] := by
  simp only [isFirst, Bool.and_eq_true, beq_iff_eq, List.all_eq_true, bne_iff_ne] at hf
  cases h with
  | start => rfl
  | link h hl => exact absurd hf.1 (hf.2 _ hl.mem_links)

/-- Whether a table goes with a grammar: it knows all its actions, where it reduces by a production
it has come along the right side, and where it accepts it has come along the start symbol only. -/
def fits (t : Table) (G : ContextFree) : Bool :=
  t.actions.all fun e =>
    match e.2 with
    | .shift _ => true
    | .reduce id => G.productions.any fun p =>
      p.id == id && t.backs (fun s => (t.goto? s p.lhs).isSome) p.rhs.reverse e.1.1
    | .accept => t.backs t.isFirst [.nonterminal G.start] e.1.1
    | .unknown _ => false

/-- Whether all reductions by the productions of a grammar go to states of a lower rank. -/
def descends (t : Table) (G : ContextFree) (rank : Int → Nat) : Bool :=
  t.actions.all fun e =>
    match e.2 with
    | .reduce id => G.productions.all fun p =>
      p.id != id || t.gotos.all fun g => g.1.2 != p.lhs || decide (rank g.2 < rank e.1.1)
    | _ => true

end Table

/-! ## Machines that follow a grammar -/

/-- The value of a nonterminal is of the kind that goes with its name. -/
def Symbol.Fits (T : String → V → Prop) : Symbol V → Prop
  | .terminal _ => True
  | .nonterminal name v => T name v

namespace Machine

/-- What a production does with operands that it was made for: it has a value of its kind, or it is
one of those that may refuse. -/
def Answers (T : String → V → Prop) (R : Production → Prop) (p : Production)
    (eval : List (Operand V) → Except Refusal V) : Prop :=
  ∀ args : List (Symbol V), args.map Symbol.mark = p.rhs → (∀ x ∈ args, x.Fits T) →
    (∃ v, eval (args.map Symbol.operand) = .ok v ∧ T p.lhs v) ∨
      R p ∧ ∃ reason, eval (args.map Symbol.operand) = .error (.operands reason)

/-- The table and the rules of a machine go with a grammar. -/
structure Follows (m : Machine V) (G : ContextFree) (T : String → V → Prop)
    (R : Production → Prop) : Prop where
  table : m.table.fits G = true
  all : m.rules.AllProductions
  rules : ∀ p ∈ G.productions, ∃ eval,
    m.rules.lookup p.id = some (.production p.lhs p.rhs.length eval) ∧ Answers T R p eval

/-- The stacks of a machine that has read tokens of the kinds `w`. -/
structure Sound (m : Machine V) (G : ContextFree) (T : String → V → Prop) (w : List String)
    (c : Config V) : Prop where
  path : m.OnPath c
  fits : ∀ x ∈ c.values.items, x.Fits T
  derives : G.Derives (c.values.toList.map Symbol.mark) w

/-- The kinds of tokens, but for those that are passed over. -/
def kinds (m : Machine V) (ts : List Token) : List String :=
  (m.unskipped ts).map Token.kind

variable {m : Machine V} {G : ContextFree} {T : String → V → Prop} {R : Production → Prop}
  {c d : Config V} {w : List String} {s : Int} {kind : String}

theorem sound_start (m : Machine V) (G : ContextFree) (T : String → V → Prop) (s : Stream) :
    m.Sound G T [] (m.start s) :=
  ⟨onPath_start m s, by simp [start, Stack.ofList], .nil⟩

theorem OnPath.chain (h : m.OnPath c) : m.table.Chain c.states.items c.values.items :=
  Table.IsPath.chain h

theorem OnPath.back (h : m.OnPath c) (hs : c.states.peek = some s) {ok : Int → Bool}
    {marks : List Mark} (hb : m.table.backs ok marks s = true) :
    ∃ e, (c.states.drop marks.length).peek = some e ∧ ok e = true ∧
      marks.length ≤ c.values.size ∧ (c.values.top marks.length).map Symbol.mark = marks.reverse ∧
      ∃ ss, m.table.Chain (e :: ss) (c.values.items.drop marks.length) := by
  obtain ⟨ss, hss⟩ := List.head?_eq_some_iff.mp hs
  have hchain := h.chain
  rw [hss] at hchain
  obtain ⟨e, ss', hdrop, he, hmarks, hrest⟩ := hchain.back hb
  refine ⟨e, ?_, he, ?_, ?_, ss', hrest⟩
  · rw [Stack.peek, Stack.drop, hss, hdrop]
    rfl
  · have hlen := congrArg List.length hmarks
    rw [List.length_map, List.length_take] at hlen
    rw [Stack.size]
    omega
  · rw [Stack.top, List.map_reverse, hmarks]

/-- A production is due: its right side lies on top of the stack, there is a state to go to, and its
rule has an answer. -/
structure Due (m : Machine V) (G : ContextFree) (T : String → V → Prop) (R : Production → Prop)
    (c : Config V) (p : Production) : Prop where
  mem : p ∈ G.productions
  size : p.rhs.length ≤ c.values.size
  marks : (c.values.top p.rhs.length).map Symbol.mark = p.rhs
  goto : ∃ e q, (c.states.drop p.rhs.length).peek = some e ∧ m.table.goto? e p.lhs = some q
  rule : ∃ eval, m.rules.lookup p.id = some (.production p.lhs p.rhs.length eval) ∧
    ((∃ v, eval ((c.values.top p.rhs.length).map Symbol.operand) = .ok v ∧ T p.lhs v) ∨
      R p ∧ ∃ reason, eval ((c.values.top p.rhs.length).map Symbol.operand) =
        .error (.operands reason))

theorem Follows.due (hm : m.Follows G T R) (hc : m.Sound G T w c) (hs : c.states.peek = some s)
    {id : Int} (ha : m.table.action? s kind = some (.reduce id)) :
    ∃ p, p.id = id ∧ m.Due G T R c p := by
  have hfit := List.all_eq_true.mp hm.table _ (Table.mem_actions ha)
  simp only [List.any_eq_true, Bool.and_eq_true, beq_iff_eq] at hfit
  obtain ⟨p, hp, hid, hback⟩ := hfit
  obtain ⟨e, he, hgoto, hlen, hmarks, -⟩ := hc.path.back hs hback
  rw [List.length_reverse] at he hlen hmarks
  rw [List.reverse_reverse] at hmarks
  obtain ⟨q, hq⟩ := Option.isSome_iff_exists.mp hgoto
  obtain ⟨eval, hl, hanswers⟩ := hm.rules p hp
  have hfits : ∀ x ∈ c.values.top p.rhs.length, x.Fits T :=
    fun x hx => hc.fits x (Stack.mem_of_mem_top hx)
  exact ⟨p, hid, hp, hlen, hmarks, ⟨e, q, he, hq⟩, eval, hl, hanswers _ hmarks hfits⟩

theorem Due.value {p : Production} (h : m.Due G T R c p) {lhs : String} {arity : Nat} {e : Int}
    {v : V} (hr : Reduction m c p.id lhs arity e v) :
    lhs = p.lhs ∧ arity = p.rhs.length ∧ T p.lhs v := by
  obtain ⟨eval, hl, hv⟩ := hr.rule
  obtain ⟨eval', hl', hanswer⟩ := h.rule
  rw [hl', Option.some.injEq, Rule.production.injEq] at hl
  obtain ⟨rfl, rfl, rfl⟩ := hl
  obtain ⟨v', hv', ht⟩ | ⟨-, reason, hrefused⟩ := hanswer
  · rw [hv, Except.ok.injEq] at hv'
    exact ⟨rfl, rfl, hv' ▸ ht⟩
  · rw [hv] at hrefused
    cases hrefused

theorem Due.obstacle {p : Production} (h : m.Due G T R c p) {f : Failure}
    (ho : Obstacle m c (.reduce p.id) f) :
    R p ∧ ∃ fault, f = .reduction fault ∧ fault.rule = p.id ∧ fault.lhs = p.lhs := by
  obtain ⟨eval, hl, hanswer⟩ := h.rule
  cases ho with
  | unregistered hl' =>
    rw [hl] at hl'
    cases hl'
  | underflow hl' hshort =>
    rw [hl, Option.some.injEq, Rule.production.injEq] at hl'
    obtain ⟨-, rfl, -⟩ := hl'
    obtain ⟨e, -, he, -⟩ := h.goto
    have := h.size
    have := Stack.lt_size_of_peek_drop he
    omega
  | refused hl' hv =>
    rw [hl, Option.some.injEq, Rule.production.injEq] at hl'
    obtain ⟨rfl, rfl, rfl⟩ := hl'
    obtain ⟨v, hok, -⟩ | ⟨hr, -⟩ := hanswer
    · rw [hv] at hok
      cases hok
    · exact ⟨hr, _, rfl, rfl, rfl⟩
  | failed hl' hv =>
    rw [hl, Option.some.injEq, Rule.production.injEq] at hl'
    obtain ⟨rfl, rfl, rfl⟩ := hl'
    obtain ⟨v, hok, -⟩ | ⟨-, reason, hrefused⟩ := hanswer
    · rw [hv] at hok
      cases hok
    · rw [hv] at hrefused
      cases hrefused

theorem Follows.accepts (hm : m.Follows G T R) (hc : m.OnPath c) (hs : c.states.peek = some s)
    (ha : m.table.action? s kind = some .accept) : ∃ x, c.values.items = [x] := by
  obtain ⟨e, -, hfirst, hlen, -, ss, hchain⟩ :=
    hc.back hs (List.all_eq_true.mp hm.table _ (Table.mem_actions ha))
  have hnil := hchain.eq_nil hfirst
  rw [List.drop_eq_nil_iff] at hnil
  exact List.length_eq_one_iff.mp (Nat.le_antisymm hnil hlen)

/-! ## What a step keeps -/

theorem Effect.sound (he : Effect m c .running d) (hm : m.Follows G T R) (hc : m.Sound G T w c) :
    m.Sound G T (w ++ m.kinds (m.taken c)) d := by
  have hpath := he.onPath rfl hc.path
  cases he with
  | skip hp hk =>
    have hnone : m.kinds (m.taken c) = [] := by
      simp [taken_skip hp hk, kinds, unskipped_cons_of_skip hk]
    rw [hnone, List.append_nil]
    exact ⟨hpath, hc.fits, hc.derives⟩
  | @shift t _ _ _ _ hp hk hs ha hn =>
    rw [taken_act hp hk hs ha, kinds, unskipped_cons_of_not_skip hk]
    refine ⟨hpath, ?_, ?_⟩
    · intro x hx
      rcases List.mem_cons.mp hx with rfl | hx
      · trivial
      · exact hc.fits x hx
    · simpa [Symbol.mark] using hc.derives.append (.token t.kind)
  | reduce hp hk hs ha hr hg hn =>
    obtain ⟨p, rfl, hdue⟩ := hm.due hc hs ha
    obtain ⟨rfl, rfl, ht⟩ := hdue.value hr
    rw [taken_act hp hk hs ha]
    refine ⟨hpath, ?_, ?_⟩
    · intro x hx
      rcases List.mem_cons.mp hx with rfl | hx
      · exact ht
      · exact hc.fits x (List.mem_of_mem_drop hx)
    · -- The right side gives way to the left, and derives what it derived.
      have hd := hc.derives
      rw [← Stack.toList_drop_append_top c.values p.rhs.length, List.map_append, hdue.marks] at hd
      obtain ⟨u, v, rfl, hu, hv⟩ := hd.of_append
      simpa [kinds, Symbol.mark] using hu.append (.production hdue.mem hv)

theorem after_sound (hm : m.Follows G T R) (hc : m.Sound G T w c) {n : Nat}
    (hv : ∀ k < n, m.verdictAt k c = .running) :
    m.Sound G T (w ++ m.kinds (m.consumed n c)) (m.after n c) := by
  induction n with
  | zero => simpa [consumed, kinds, after] using hc
  | succ n ih =>
    have he := effect_at hm.all (hv n (by omega))
    simpa [kinds] using he.sound hm (ih fun k hk => hv k (by omega))

/-! ## How a run ends -/

theorem Effect.failure {f : Failure} (he : Effect m c (.failed f) d) (hm : m.Follows G T R)
    (hc : m.Sound G T w c) {ts : List (Token × Location)} (hts : c.stream.tokens = .ok ts) :
    ∃ p ∈ G.productions, R p ∧ ∃ fault, f = .reduction fault ∧ fault.rule = p.id ∧
      fault.lhs = p.lhs := by
  cases he with
  | broken hp =>
    obtain ⟨r, hpeek, -⟩ := (Stream.refines_of_tokens hts).peek
    rw [hp] at hpeek
    cases hpeek
  | @stuck _ stream _ action _ _ hp hk hs ha ho hn =>
    cases action with
    | shift q => cases ho
    | accept => cases ho
    | unknown label =>
      have hfit := List.all_eq_true.mp hm.table _ (Table.mem_actions ha)
      cases hfit
    | reduce id =>
      have hc' : m.Sound G T w { c with stream := stream } := ⟨hc.path, hc.fits, hc.derives⟩
      obtain ⟨p, rfl, hdue⟩ := hm.due hc' hs ha
      exact ⟨p, hdue.mem, hdue.obstacle ho⟩
  | lost hp hk hs ha hr hg hn =>
    obtain ⟨p, rfl, hdue⟩ := hm.due hc hs ha
    obtain ⟨rfl, rfl, -⟩ := hdue.value hr
    obtain ⟨e, q, he, hq⟩ := hdue.goto
    rw [hr.states, Option.some.injEq] at he
    rw [← he, hg] at hq
    cases hq

theorem Effect.outcome (he : Effect m c .halted d) (hm : m.Follows G T R) (hc : m.OnPath c)
    (hacc : c.accepted = false) :
    (∃ v, outcome d = .ok (.accepted v)) ∨ ∃ e, outcome d = .ok (.rejected (some e)) := by
  cases he with
  | accept hp hk hs ha hn =>
    obtain ⟨x, hx⟩ := hm.accepts hc hs ha
    exact Or.inl ⟨x.operand, by simp [Machine.outcome, hx]⟩
  | @reject _ _ e _ hp hk ha he hn => exact Or.inr ⟨e, by simp [Machine.outcome, hacc]⟩

/-- A run of a machine that follows a grammar accepts, rejects, or fails on a value that is
refused. -/
theorem Follows.ends_safely (hm : m.Follows G T R) {s : Stream} {ts : List (Token × Location)}
    (hts : s.tokens = .ok ts) {r : Except Failure (Outcome V)} (h : m.Ends (m.start s) r d) :
    (∃ v, r = .ok (.accepted v)) ∨ (∃ e, r = .ok (.rejected (some e))) ∨
      ∃ p ∈ G.productions, R p ∧ ∃ fault, r = .error (.reduction fault) ∧ fault.rule = p.id ∧
        fault.lhs = p.lhs := by
  obtain ⟨fuel, hrun⟩ := h
  obtain ⟨n, hgo, rfl, hlast⟩ := run_last hrun
  have hsound := after_sound hm (sound_start m G T s) hgo
  obtain ⟨hhalt, rfl⟩ | ⟨f, hfail, rfl⟩ := hlast
  · obtain hv | hrej := (effect_at hm.all hhalt).outcome hm hsound.path (after_accepted hm.all hgo)
    · exact Or.inl hv
    · exact Or.inr (Or.inl hrej)
  · obtain ⟨rest, hrest, -⟩ := consumed_append hm.all hts (isFailed_of_running hgo)
    obtain ⟨p, hp, hr, fault, rfl, hrule⟩ := (effect_at hm.all hfail).failure hm hsound hrest
    exact Or.inr (Or.inr ⟨p, hp, hr, fault, rfl, hrule⟩)

theorem Follows.descends (hm : m.Follows G T R) {rank : Int → Nat}
    (hd : m.table.descends G rank = true) : m.Descends rank := by
  intro s e q id kind lhs arity eval ha hl hg
  have hentry := List.all_eq_true.mp hm.table _ (Table.mem_actions ha)
  have hdown := List.all_eq_true.mp hd _ (Table.mem_actions ha)
  simp only [List.any_eq_true, Bool.and_eq_true, beq_iff_eq] at hentry
  obtain ⟨p, hp, rfl, -⟩ := hentry
  obtain ⟨eval', hl', -⟩ := hm.rules p hp
  rw [hl, Option.some.injEq, Rule.production.injEq] at hl'
  obtain ⟨rfl, -, -⟩ := hl'
  simp only [List.all_eq_true, Bool.or_eq_true, bne_iff_ne, decide_eq_true_eq] at hdown
  have hgotos := (hdown p hp).resolve_left (fun h => h rfl)
  exact (hgotos _ (Table.mem_gotos hg)).resolve_left fun h => h rfl

end Machine

end ShiftReduce
