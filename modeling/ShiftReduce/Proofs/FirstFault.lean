import ShiftReduce.Proofs.ViablePrefixes

/-! # Syntax errors stand at the first wrong token

Reductions can come between the look at a wrong token and the error. But no token is shifted past
it, and the state in which the error is found still knows every token that could have come.
-/

namespace ShiftReduce

/-! ## The expected tokens -/

section SortedSets

variable {α : Type} [LT α] [DecidableLT α] [DecidableEq α] {x y : α} {xs : List α}

@[simp]
theorem mem_insertSorted : y ∈ insertSorted x xs ↔ y = x ∨ y ∈ xs := by
  induction xs with
  | nil => simp [insertSorted]
  | cons z zs ih =>
    unfold insertSorted
    split
    · simp
    · split
      · next hxz => simp [hxz]
      · rw [List.mem_cons, ih, List.mem_cons, or_left_comm]

theorem mem_sortedSet : x ∈ sortedSet xs ↔ x ∈ xs := by
  induction xs with
  | nil => rfl
  | cons z zs ih =>
    rw [sortedSet, List.foldr_cons, mem_insertSorted, List.mem_cons]
    exact or_congr_right ih

variable [Trans (fun a b : α => a < b) (fun a b : α => a < b) fun a b : α => a < b]
  [Std.Trichotomous fun a b : α => a < b]

theorem pairwise_insertSorted (h : xs.Pairwise (· < ·)) :
    (insertSorted x xs).Pairwise (· < ·) := by
  induction xs with
  | nil => simp [insertSorted]
  | cons z zs ih =>
    obtain ⟨hz, hzs⟩ := List.pairwise_cons.mp h
    unfold insertSorted
    split
    · next hxz =>
      refine List.pairwise_cons.mpr ⟨?_, h⟩
      intro y hy
      rcases List.mem_cons.mp hy with rfl | hy
      · exact hxz
      · exact Std.lt_trans hxz (hz y hy)
    · next hxz =>
      split
      · exact h
      · next hne =>
        have hzx : z < x := ((Std.lt_trichotomy x z).resolve_left hxz).resolve_left hne
        refine List.pairwise_cons.mpr ⟨?_, ih hzs⟩
        intro y hy
        rcases mem_insertSorted.mp hy with rfl | hy
        · exact hzx
        · exact hz y hy

theorem pairwise_sortedSet (xs : List α) : (sortedSet xs).Pairwise (· < ·) := by
  induction xs with
  | nil => exact .nil
  | cons x xs ih => exact pairwise_insertSorted ih

end SortedSets

theorem Table.mem_expected {t : Table} {s : Int} {k : String} :
    k ∈ t.expected s ↔ t.action? s k ≠ none := by
  unfold expected action?
  rw [mem_sortedSet, ne_eq, List.lookup_eq_none_iff]
  simp only [List.mem_map, List.mem_filter, beq_iff_eq, Classical.not_forall]
  constructor
  · rintro ⟨e, ⟨he, rfl⟩, rfl⟩
    exact ⟨e, he, by simp⟩
  · rintro ⟨e, he, hkey⟩
    simp only [bne_iff_ne, ne_eq, Classical.not_not, Prod.ext_iff] at hkey
    exact ⟨e, ⟨he, hkey.1.symm⟩, hkey.2.symm⟩

/-- An error stands at the first wrong token: what was read before it can begin a sentence, with the
token it no longer can, and every token that could have come is expected. -/
structure ContextFree.Pinpoints (G : ContextFree) (read : List String) (look : Token × Location)
    (e : SyntaxError) : Prop where
  kind : e.kind = some look.1.kind
  text : e.text = some look.1.text
  file : e.file = look.2.name
  line : e.line = look.2.line
  viable : G.Viable read
  wrong : ¬ G.Viable (read ++ [look.1.kind])
  sorted : e.expected.Pairwise (· < ·)
  complete : ∀ k, G.Viable (read ++ [k]) → k ∈ e.expected

namespace Machine

variable {V : Type} {m : Machine V} {G : ContextFree} {T : String → V → Prop}
  {R : Production → Prop} {w : List String} {c d : Config V} {s : Int}

/-- What a machine knows when it has read `w`: it is within a sentence, and where its table has
nothing to say about a token, it expects all tokens that could come instead. -/
structure Knows (m : Machine V) (G : ContextFree) (w : List String) (c : Config V) : Prop where
  within : ∃ u, G.Sentence u ∧ w <+: u
  expects : ∀ {s : Int} {t : Token} {r : Stream}, c.states.peek = some s →
    c.stream.peek = (.ok (some t), r) → m.table.action? s t.kind = none →
    ∀ {k : String}, G.Viable (w ++ [k]) → k ∈ m.table.expected s

theorem Sound.exists_top (hc : m.Sound G T w c) : ∃ s, c.states.peek = some s := by
  have hsize := hc.path.size
  exact Stack.exists_peek (by omega)

/-- A machine that always knows what can come reports an error at the first wrong token, with what
the state on top expects. -/
theorem Follows.pinpoints (hm : m.Follows G T R) {stream : Stream} {ts : List (Token × Location)}
    (hts : stream.tokens = .ok ts) {t : Token} (hlast : t ∈ ts.map Prod.fst)
    (hkept : m.skip.contains t.kind = false)
    (hunused : ∀ p ∈ G.productions, Mark.terminal t.kind ∉ p.rhs)
    (hknows : ∀ n, (∀ k < n, m.verdictAt k (m.start stream) = .running) →
      m.Knows G (m.kinds (m.consumed n (m.start stream))) (m.after n (m.start stream)))
    {e : SyntaxError} (hend : m.Ends (m.start stream) (.ok (.rejected (some e))) d) :
    ∃ before look after s c, ts.map Prod.fst = before ++ look.1 :: after.map Prod.fst ∧
      d.stream.tokens = .ok (look :: after) ∧ G.Pinpoints (m.kinds before) look e ∧
      m.Sound G T (m.kinds before) c ∧ c.states.peek = some s ∧ e.expected = m.table.expected s := by
  obtain ⟨fuel, hrun⟩ := hend
  obtain ⟨n, look, r, hgo, hpeek, hno, rfl, he⟩ := run_rejects hm.all hrun
  have hsound := after_sound hm (sound_start m G T stream) hgo
  rw [List.nil_append] at hsound
  obtain ⟨rest, hrest, happ⟩ :=
    consumed_append hm.all (c := m.start stream) hts (isFailed_of_running hgo)
  obtain ⟨hlook, htokens, -⟩ := Stream.peek_tokens hrest hpeek
  obtain ⟨s, hs⟩ := hsound.exists_top
  have hk := hknows n hgo
  obtain ⟨u, hu, hfront⟩ := hk.within
  cases rest with
  | nil =>
    -- All tokens would have been read, and one of them is in no sentence.
    rw [List.map_nil, List.append_nil] at happ
    have hmem : t.kind ∈ m.kinds (m.consumed n (m.start stream)) := by
      rw [kinds, happ]
      exact List.mem_map_of_mem (List.mem_filter.mpr ⟨hlast, by rw [hkept]; rfl⟩)
    exact absurd (hfront.subset hmem) (hu.not_mem hunused (by simp))
  | cons x rest =>
    obtain rfl : look = some x.1 := hlook
    obtain ⟨r', hr', -, hplace, -⟩ := (Stream.refines_of_tokens hrest).peek
    rw [hpeek, Prod.mk.injEq] at hr'
    obtain rfl := hr'.2
    have hplace : d.stream.location = x.2 := hplace
    rw [actionFor_some m hs] at hno
    have hcomplete : ∀ k, G.Viable (m.kinds (m.consumed n (m.start stream)) ++ [k]) →
        k ∈ m.table.expected s := fun k hv => hk.expects hs hpeek hno hv
    rw [Option.some.injEq, hs] at he
    subst he
    refine ⟨_, x, rest, s, _, by rw [← happ]; rfl, htokens, ?_, hsound, hs, rfl⟩
    refine ⟨rfl, rfl, congrArg Location.name hplace, congrArg Location.line hplace,
      .of_sentence hu hfront, ?_, pairwise_sortedSet _, hcomplete⟩
    intro hv
    exact Table.mem_expected.mp (hcomplete _ hv) hno

end Machine

/-! ## The settings language -/

namespace Settings

variable {m : Machine Value} {T : String → Value → Prop} {w : List String} {c : Config Value}
  {s : Int}

theorem reached_of_sound (ht : m.table = table) (hc : m.Sound grammar T w c)
    (hs : c.states.peek = some s) : Reached w s :=
  hc.reached (ht ▸ reached_start) (fun h hl hd => h.link (ht ▸ hl) hd) hs

theorem knows (ht : m.table = table) (hc : m.Sound grammar T w c) : m.Knows grammar w c where
  within := by
    obtain ⟨s, hs⟩ := hc.exists_top
    exact (reached_of_sound ht hc hs).sentence
  expects := by
    intro s t r hs _ _ k hv
    rw [ht]
    exact (reached_of_sound ht hc hs).expected_iff.mpr hv

end Settings

/-! ## The nesting grammar -/

namespace Nesting

open Machine (Effect Reduction)

variable {m : Machine Value} {T : String → Value → Prop} {w : List String} {c d : Config Value}
  {s : Int}

theorem reached_of_sound (ht : m.table = table) (hc : m.Sound grammar T w c)
    (hs : c.states.peek = some s) : Reached w s :=
  hc.reached (ht ▸ reached_start) (fun h hl hd => h.link (ht ▸ hl) hd) hs

/-- Behind an empty sentence comes the token at which it was found to be empty. -/
def Poised (m : Machine Value) (w : List String) (c : Config Value) : Prop :=
  ∀ ⦃s : Int⦄, c.states.peek = some s → s = 1 ∨ s = 3 → "integer" ∉ w →
    ∃ t r, c.stream.peek = (.ok (some t), r) ∧ m.skip.contains t.kind = false ∧
      m.table.action? s t.kind ≠ none

theorem poised_start (ht : m.table = table) (stream : Stream) : Poised m [] (m.start stream) := by
  intro s hs hbehind
  have hs : some m.table.start = some s := hs
  rw [ht, Option.some.injEq] at hs
  subst hs
  exact absurd hbehind (by decide)

theorem reduction_empty (hr : m.rules = rules) {p e : Int} {lhs : String} {arity : Nat} {v : Value}
    (hred : Reduction m c 1 lhs arity e v) (hp : c.states.peek = some p) : lhs = "S" ∧ e = p := by
  obtain ⟨eval, hl, -⟩ := hred.rule
  rw [hr] at hl
  have hrule := Option.some.inj hl
  simp only [Rule.ofValues, Rule.production.injEq] at hrule
  obtain ⟨rfl, rfl, -⟩ := hrule
  have he : c.states.peek = some e := hred.states
  rw [hp, Option.some.injEq] at he
  exact ⟨rfl, he.symm⟩

theorem Poised.step (h : Poised m w c) (he : Effect m c .running d) (ht : m.table = table)
    (hr : m.rules = rules) (hc : m.Sound grammar T w c) :
    Poised m (w ++ m.kinds (m.taken c)) d := by
  intro s hs hbehind hw
  have hw : "integer" ∉ w := fun hmem => hw (List.mem_append_left _ hmem)
  cases he with
  | skip hp hk =>
    obtain ⟨t, r, hp', hk', -⟩ := h hs hbehind hw
    rw [hp, Prod.mk.injEq, Except.ok.injEq, Option.some.injEq] at hp'
    rw [← hp'.1, hk] at hk'
    cases hk'
  | @shift t _ p q _ hp hk hp' ha hn =>
    obtain rfl : q = s := Option.some.inj hs
    rw [ht] at ha
    have hmem := Table.mem_actions ha
    simp only [table, List.mem_cons, List.not_mem_nil, or_false, Prod.mk.injEq, reduceCtorEq,
      and_false, false_or, Action.shift.injEq] at hmem
    omega
  | @reduce t stream p q e id lhs arity v _ hp hk hp' ha hred hg hn =>
    obtain rfl : q = s := Option.some.inj hs
    refine ⟨t, stream, Stream.peek_peek hp, hk, ?_⟩
    have hreached := reached_of_sound ht hc hp'
    rw [ht] at ha hg ⊢
    have hmem := Table.mem_actions ha
    simp only [table, List.mem_cons, List.not_mem_nil, or_false, Prod.mk.injEq, reduceCtorEq,
      and_false, false_or, Action.reduce.injEq] at hmem
    -- An empty sentence is found at a token that fits, and a pair that is closed has its integer.
    rcases hmem with ⟨⟨rfl, hkind⟩, rfl⟩ | ⟨⟨rfl, hkind⟩, rfl⟩ | ⟨⟨rfl, -⟩, rfl⟩ | ⟨⟨rfl, -⟩, rfl⟩
    · obtain ⟨rfl, rfl⟩ := reduction_empty hr hred hp'
      obtain rfl : (1 : Int) = q := Option.some.inj hg
      rw [hkind]
      decide
    · obtain ⟨rfl, rfl⟩ := reduction_empty hr hred hp'
      obtain rfl : (3 : Int) = q := Option.some.inj hg
      rw [hkind]
      decide
    · exact absurd hreached.integer_mem hw
    · exact absurd hreached.integer_mem hw

theorem poised_after (ht : m.table = table) (hr : m.rules = rules) {stream : Stream} {n : Nat}
    (hgo : ∀ k < n, m.verdictAt k (m.start stream) = .running) :
    Poised m (m.kinds (m.consumed n (m.start stream))) (m.after n (m.start stream)) := by
  have hm := follows_grammar ht hr
  induction n with
  | zero => exact poised_start ht stream
  | succ n ih =>
    have hgo' : ∀ k < n, m.verdictAt k (m.start stream) = .running := fun k hk => hgo k (by omega)
    have he := Machine.effect_at hm.all (hgo n (by omega))
    have hsound := Machine.after_sound hm (Machine.sound_start m _ _ stream) hgo'
    simpa [Machine.kinds] using (ih hgo').step he ht hr hsound

theorem knows (ht : m.table = table) (hc : m.Sound grammar T w c) (hp : Poised m w c) :
    m.Knows grammar w c where
  within := by
    obtain ⟨s, hs⟩ := hc.exists_top
    exact (reached_of_sound ht hc hs).sentence
  expects := by
    intro s t r hs hpeek hno k hv
    rw [ht]
    refine (reached_of_sound ht hc hs).expected (fun hbehind => ?_) hv
    refine Classical.byContradiction fun hw => ?_
    obtain ⟨t', r', hpeek', -, hact⟩ := hp hs hbehind hw
    rw [hpeek, Prod.mk.injEq, Except.ok.injEq, Option.some.injEq] at hpeek'
    exact hact (hpeek'.1 ▸ hno)

end Nesting

/-! ## The bundled grammars -/

/-- An error of a machine for a bundled grammar stands at the first token at which what was read is
no longer the front of a sentence. It expects every token that could have come, and for the settings
no other. -/
theorem errors_at_first_fault (es : List Event) (name : String) (debug : Bool) :
    (∃ t, Grammar.nesting.table = .ok t ∧
      let m : Machine Value := { table := t, rules := Grammar.nesting.rules, debug := debug }
      ∀ e d, m.Parses (m.start (.ofInputs [Input.tokens es name])) (.ok (.rejected (some e))) d →
        ∃ before look after,
          es.filterMap Event.token? ++ [Token.eof] = before ++ look.1 :: after.map Prod.fst ∧
          d.stream.tokens = .ok (look :: after) ∧
          Nesting.grammar.Pinpoints (m.kinds before) look e) ∧
    ∃ t, Grammar.settings.table = .ok t ∧
      let m : Machine Value := { table := t, rules := Grammar.settings.rules, debug := debug }
      ∀ e d, m.Parses (m.start (.ofInputs [Input.tokens es name])) (.ok (.rejected (some e))) d →
        ∃ before look after,
          es.filterMap Event.token? ++ [Token.eof] = before ++ look.1 :: after.map Prod.fst ∧
          d.stream.tokens = .ok (look :: after) ∧
          Settings.grammar.Pinpoints (m.kinds before) look e ∧
          ∀ k ∈ e.expected, Settings.grammar.Viable (m.kinds before ++ [k]) := by
  have hts : (Stream.ofInputs [Input.tokens es name]).tokens = .ok (located name 0 es) :=
    Stream.tokens_single (Stream.supply_list es name 0)
  have htokens := located_tokens name 0 es
  have heof : Token.eof ∈ (located name 0 es).map Prod.fst := by simp [htokens]
  constructor
  · refine ⟨Nesting.table, Nesting.table_nesting, ?_⟩
    intro m e d hparses
    have hm : m.Follows Nesting.grammar _ _ := Nesting.follows_grammar rfl rfl
    obtain ⟨before, look, after, s, c, happ, hd, hpin, -⟩ :=
      hm.pinpoints hts heof rfl (by decide)
        (fun n hgo => Nesting.knows rfl (Machine.after_sound hm (Machine.sound_start m _ _ _) hgo)
          (Nesting.poised_after rfl rfl hgo))
        (hparses.ends Nesting.validate_rules)
    exact ⟨before, look, after, htokens ▸ happ, hd, hpin⟩
  · refine ⟨Settings.table, Settings.table_settings, ?_⟩
    intro m e d hparses
    have hm : m.Follows Settings.grammar _ _ := Settings.follows_grammar rfl rfl
    obtain ⟨before, look, after, s, c, happ, hd, hpin, hc, hs, hexpected⟩ :=
      hm.pinpoints hts heof rfl (by decide)
        (fun n hgo => Settings.knows rfl (Machine.after_sound hm (Machine.sound_start m _ _ _) hgo))
        (hparses.ends Settings.validate_rules)
    refine ⟨before, look, after, htokens ▸ happ, hd, hpin, ?_⟩
    intro k hk
    rw [hexpected] at hk
    exact (Settings.reached_of_sound rfl hc hs).expected_iff.mp hk

/-- The syntax error that a run ended with. -/
def Machine.rejection? {V : Type} (x : Except Failure (Machine.Outcome V) × Config V) :
    Option SyntaxError :=
  match x.1 with
  | .ok (.rejected e) => e
  | _ => none

theorem Machine.ends_of_rejection {V : Type} {m : Machine V} {c : Config V} {e : SyntaxError}
    (fuel : Nat) (h : (m.run fuel c).bind rejection? = some e) :
    ∃ d, m.Ends c (.ok (.rejected (some e))) d := by
  obtain ⟨⟨r, d⟩, hrun, he⟩ := Option.bind_eq_some_iff.mp h
  unfold rejection? at he
  split at he
  · next hr =>
    simp only at hr
    subst hr he
    exact ⟨d, fuel, hrun⟩
  · simp at he

/-- A setting that goes on in the next line, with no sign in front of the value. -/
def unsigned : List Event :=
  [.token ⟨"kw_set", "set"⟩, .token ⟨"ident", "x"⟩, .token ⟨"nl", "\n"⟩, .mark 2,
   .token ⟨"integer", "1"⟩, .token ⟨"semicolon", ";"⟩]

theorem errors_at_first_fault_unsigned :
    (let m := Nesting.machine false
      ∃ e d, m.Parses (m.start (.ofInputs [Input.tokens unsigned "in"]))
          (.ok (.rejected (some e))) d ∧ e = ⟨"in", 0, some "kw_set", some "set", ["eof", "ident"]⟩ ∧
        ∃ before look after, d.stream.tokens = .ok (look :: after) ∧
          Nesting.grammar.Pinpoints (m.kinds before) look e) ∧
    let m := Settings.machine false
    ∃ e d, m.Parses (m.start (.ofInputs [Input.tokens unsigned "in"]))
        (.ok (.rejected (some e))) d ∧ e = ⟨"in", 2, some "integer", some "1", ["equal"]⟩ ∧
      ∃ before look after, d.stream.tokens = .ok (look :: after) ∧
        Settings.grammar.Pinpoints (m.kinds before) look e ∧
        Settings.grammar.Viable (m.kinds before ++ ["equal"]) := by
  obtain ⟨⟨t, ht, hnesting⟩, t', ht', hsettings⟩ := errors_at_first_fault unsigned "in" false
  constructor
  · intro m
    rw [Nesting.table_nesting, Except.ok.injEq] at ht
    subst ht
    obtain ⟨d, hend⟩ := Machine.ends_of_rejection (m := m)
      (c := m.start (.ofInputs [Input.tokens unsigned "in"]))
      (e := ⟨"in", 0, some "kw_set", some "set", ["eof", "ident"]⟩) 1 (by decide +kernel)
    have hparses := hend.parses Nesting.validate_rules
    obtain ⟨before, look, after, -, hd, hpin⟩ := hnesting _ _ hparses
    exact ⟨_, d, hparses, rfl, before, look, after, hd, hpin⟩
  · intro m
    rw [Settings.table_settings, Except.ok.injEq] at ht'
    subst ht'
    obtain ⟨d, hend⟩ := Machine.ends_of_rejection (m := m)
      (c := m.start (.ofInputs [Input.tokens unsigned "in"]))
      (e := ⟨"in", 2, some "integer", some "1", ["equal"]⟩) 6 (by decide +kernel)
    have hparses := hend.parses Settings.validate_rules
    obtain ⟨before, look, after, -, hd, hpin, hexact⟩ := hsettings _ _ hparses
    exact ⟨_, d, hparses, rfl, before, look, after, hd, hpin, hexact "equal" (by simp)⟩

end ShiftReduce
