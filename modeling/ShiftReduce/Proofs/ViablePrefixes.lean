import ShiftReduce.Proofs.BundledSafety

/-! # What a state knows of the tokens in front of it

The state on top of the stack tells what the tokens read so far look like, and so which tokens can
come next. In the settings language it tells this exactly. In the nesting grammar it may also allow
for a token that turns out wrong one step later.
-/

namespace ShiftReduce

variable {V : Type}

theorem Table.Chain.reached {t : Table} {G : ContextFree} {Reached : List String → Int → Prop}
    (hstart : Reached [] t.start)
    (hlink : ∀ {w v : List String} {p q : Int} {x : Symbol V}, Reached w p → t.Link p x q →
      G.Derives [x.mark] v → Reached (w ++ v) q)
    {s : Int} {ss : List Int} {symbols : List (Symbol V)} (h : t.Chain (s :: ss) symbols)
    {w : List String} (hd : G.Derives (symbols.reverse.map Symbol.mark) w) : Reached w s := by
  induction symbols generalizing s ss w with
  | nil =>
    cases h
    rw [ContextFree.derives_nil_iff.mp hd]
    exact hstart
  | cons x xs ih =>
    cases h with
    | link h hl =>
      rw [List.reverse_cons, List.map_append] at hd
      obtain ⟨u, v, rfl, hu, hv⟩ := hd.of_append
      exact hlink (ih h hu) hl hv

/-- What holds of no tokens at the start, and is kept along the links of the table, holds of the
tokens that a machine has read and the state on top. -/
theorem Machine.Sound.reached {m : Machine V} {G : ContextFree} {T : String → V → Prop}
    {Reached : List String → Int → Prop} (hstart : Reached [] m.table.start)
    (hlink : ∀ {w v : List String} {p q : Int} {x : Symbol V}, Reached w p → m.table.Link p x q →
      G.Derives [x.mark] v → Reached (w ++ v) q)
    {w : List String} {c : Config V} (hc : m.Sound G T w c) {s : Int}
    (hs : c.states.peek = some s) : Reached w s := by
  obtain ⟨ss, hss⟩ := List.head?_eq_some_iff.mp hs
  have hchain := hc.path.chain
  rw [hss] at hchain
  exact hchain.reached hstart hlink hc.derives

/-! ## The settings language -/

namespace Settings

open ContextFree

/-- The kinds of the tokens of all statements. -/
def statements : List (List String) :=
  ["kw_unset", "ident", "semicolon"] ::
    valueKinds.map fun k => ["kw_set", "ident", "equal", k, "semicolon"]

theorem derives_value_iff {w : List String} :
    grammar.Derives [.nonterminal "value"] w ↔ ∃ k ∈ valueKinds, w = [k] := by
  have halt : grammar.alternatives "value" = valueKinds.map fun k => [.terminal k] := rfl
  rw [derives_nonterminal_iff, halt]
  constructor
  · rintro ⟨rhs, hrhs, h⟩
    obtain ⟨k, hk, rfl⟩ := List.mem_map.mp hrhs
    simp only [derives_terminal_iff, derives_nil_iff] at h
    obtain ⟨_, rfl, rfl⟩ := h
    exact ⟨k, hk, rfl⟩
  · rintro ⟨k, hk, rfl⟩
    exact ⟨[.terminal k], List.mem_map_of_mem hk, .token k⟩

theorem derives_statement_iff {w : List String} :
    grammar.Derives [.nonterminal "stmt"] w ↔ w ∈ statements := by
  have halt : grammar.alternatives "stmt" =
      [[.terminal "kw_set", .terminal "ident", .terminal "equal", .nonterminal "value",
          .terminal "semicolon"],
        [.terminal "kw_unset", .terminal "ident", .terminal "semicolon"]] := rfl
  have hvalue : ∀ v, grammar.Derives [.nonterminal "value", .terminal "semicolon"] v ↔
      ∃ k ∈ valueKinds, v = [k, "semicolon"] := by
    intro v
    rw [derives_cons_iff]
    simp only [derives_value_iff, derives_terminal_iff, derives_nil_iff]
    constructor
    · rintro ⟨_, _, rfl, ⟨k, hk, rfl⟩, _, rfl, rfl⟩
      exact ⟨k, hk, rfl⟩
    · rintro ⟨k, hk, rfl⟩
      exact ⟨[k], ["semicolon"], rfl, ⟨k, hk, rfl⟩, [], rfl, rfl⟩
  rw [derives_nonterminal_iff, halt]
  simp only [List.mem_cons, List.not_mem_nil, or_false, exists_eq_or_imp, exists_eq_left,
    derives_terminal_iff, derives_nil_iff, hvalue, statements, List.mem_map]
  constructor
  · rintro (⟨_, rfl, _, rfl, _, rfl, k, hk, rfl⟩ | ⟨_, rfl, _, rfl, _, rfl, rfl⟩)
    · exact Or.inr ⟨k, hk, rfl⟩
    · exact Or.inl rfl
  · rintro (rfl | ⟨k, hk, rfl⟩)
    · exact Or.inr ⟨_, rfl, _, rfl, _, rfl, rfl⟩
    · exact Or.inl ⟨_, rfl, _, rfl, _, rfl, k, hk, rfl⟩

/-- A number of statements, one after the other. -/
def Whole (w : List String) : Prop := ∃ sts : List (List String), sts ⊆ statements ∧ w = sts.flatten

variable {w r b st : List String} {k : String} {s : Int}

theorem whole_nil : Whole [] := ⟨[], by simp, rfl⟩

theorem Whole.append (h : Whole w) (h' : Whole r) : Whole (w ++ r) := by
  obtain ⟨sts, hsts, rfl⟩ := h
  obtain ⟨sts', hsts', rfl⟩ := h'
  exact ⟨sts ++ sts', List.append_subset.mpr ⟨hsts, hsts'⟩, List.flatten_append.symm⟩

theorem whole_statement (h : st ∈ statements) : Whole st := ⟨[st], by simpa using h, by simp⟩

theorem length_statement : ∀ st ∈ statements, 3 ≤ st.length := by decide

theorem whole_of_sentence (h : grammar.Sentence w) : Whole w := by
  -- On the number of tokens: the last statement leaves fewer.
  induction hn : w.length using Nat.strongRecOn generalizing w with
  | ind n ih =>
    have halt : grammar.alternatives grammar.start = [[], [.nonterminal "L", .nonterminal "stmt"]] :=
      rfl
    obtain ⟨rhs, hrhs, h⟩ := derives_nonterminal_iff.mp h
    simp only [halt, List.mem_cons, List.not_mem_nil, or_false] at hrhs
    rcases hrhs with rfl | rfl
    · rw [derives_nil_iff.mp h]
      exact whole_nil
    · obtain ⟨u, v, rfl, hu, hv⟩ := derives_cons_iff.mp h
      have hst := derives_statement_iff.mp hv
      have hlen := length_statement v hst
      rw [List.length_append] at hn
      exact (ih u.length (by omega) hu rfl).append (whole_statement hst)

theorem sentence_append (h : grammar.Sentence w) (hst : st ∈ statements) :
    grammar.Sentence (w ++ st) := by
  have hp : ⟨2, "L", [.nonterminal "L", .nonterminal "stmt"]⟩ ∈ grammar.productions := by
    simp [grammar]
  exact .production hp (Derives.append h (derives_statement_iff.mpr hst))

theorem sentence_iff : grammar.Sentence w ↔ Whole w := by
  constructor
  · exact whole_of_sentence
  · rintro ⟨sts, hsts, rfl⟩
    have hempty : grammar.Sentence [] := .production (p := ⟨1, "L", []⟩) (by simp [grammar]) .nil
    have hall : ∀ {sts w}, sts ⊆ statements → grammar.Sentence w →
        grammar.Sentence (w ++ sts.flatten) := by
      intro sts
      induction sts with
      | nil =>
        intro w _ hw
        simpa using hw
      | cons st sts ih =>
        intro w hsub hw
        obtain ⟨hst, hsub⟩ := List.cons_subset.mp hsub
        rw [List.flatten_cons, ← List.append_assoc]
        exact ih hsub (sentence_append hw hst)
    exact hall hsts hempty

/-! ### The token behind a statement that was begun -/

theorem statements_prefix_free : ∀ a ∈ statements, ∀ b ∈ statements, a <+: b → a = b := by decide

theorem Whole.strip (h : Whole w) {v : List String} (hv : Whole v)
    (hp : w ++ r <+: v ++ ["eof"]) : ∃ u, Whole u ∧ r <+: u ++ ["eof"] := by
  obtain ⟨sts, hsts, rfl⟩ := h
  induction sts generalizing v with
  | nil => exact ⟨v, hv, hp⟩
  | cons st sts ih =>
    obtain ⟨hst, hrest⟩ := List.cons_subset.mp hsts
    obtain ⟨vs, hvs, rfl⟩ := hv
    rw [List.flatten_cons, List.append_assoc] at hp
    have hlen := length_statement st hst
    cases vs with
    | nil =>
      have := hp.length_le
      simp only [List.length_append, List.flatten_nil, List.length_nil, List.length_singleton] at this
      omega
    | cons st' vs =>
      obtain ⟨hst', hvrest⟩ := List.cons_subset.mp hvs
      rw [List.flatten_cons, List.append_assoc] at hp
      have hsame : st = st' := by
        have hst₁ := (List.prefix_append st _).trans hp
        rcases List.prefix_or_prefix_of_prefix hst₁ (List.prefix_append st' _) with h | h
        · exact statements_prefix_free st hst st' hst' h
        · exact (statements_prefix_free st' hst' st hst h).symm
      subst hsame
      exact ih ⟨vs, hvrest, rfl⟩ hrest ((List.prefix_append_right_inj st).mp hp)

/-- A token can come behind the first tokens of a statement. -/
def Continues (b : List String) (k : String) : Prop :=
  (b = [] ∧ k = "eof") ∨ ∃ st ∈ statements, b ++ [k] <+: st

theorem viable_iff (hw : Whole w) (hst : st ∈ statements) (hb : b <+: st) (hne : b ≠ st) :
    grammar.Viable (w ++ b ++ [k]) ↔ Continues b k := by
  constructor
  · rintro ⟨v, hv, hp⟩
    rw [List.append_assoc] at hp
    obtain ⟨u, ⟨sts, hsts, rfl⟩, hp⟩ := hw.strip (sentence_iff.mp hv) hp
    cases sts with
    | nil =>
      left
      cases b with
      | nil => exact ⟨rfl, by simpa using hp⟩
      | cons x b => simpa using hp.length_le
    | cons st' sts =>
      right
      have hst' : st' ∈ statements := (List.cons_subset.mp hsts).1
      refine ⟨st', hst', ?_⟩
      rw [List.flatten_cons, List.append_assoc] at hp
      rcases List.prefix_or_prefix_of_prefix hp (List.prefix_append st' _) with h | h
      · exact h
      · rcases List.prefix_concat_iff.mp h with h | h
        · exact h ▸ List.prefix_refl _
        · -- No whole statement lies in front of another's last token.
          obtain rfl := statements_prefix_free st' hst' st hst (h.trans hb)
          exact absurd (hb.eq_of_length_le h.length_le) hne
  · rintro (⟨rfl, rfl⟩ | ⟨st', hst', hp⟩)
    · exact ⟨w, sentence_iff.mpr hw, by simp⟩
    · refine .of_sentence (sentence_iff.mpr (hw.append (whole_statement hst'))) ?_
      rw [List.append_assoc]
      exact (List.prefix_append_right_inj w).mpr hp

/-! ### What the states of the table know -/

/-- The tokens of a statement that have been read where a state is on top. -/
def begun (s : Int) : List (List String) :=
  match s with
  | 2 => [["kw_set"]]
  | 3 => [["kw_unset"]]
  | 5 => [["kw_set", "ident"]]
  | 6 => [["kw_unset", "ident"]]
  | 7 => [["kw_set", "ident", "equal"]]
  | 9 | 10 | 11 | 12 | 13 | 14 => valueKinds.map fun k => ["kw_set", "ident", "equal", k]
  | _ => [[]]

theorem begun_front : ∀ s ∈ table.states, ∀ b ∈ begun s, ∃ st ∈ statements, b <+: st ∧ b ≠ st := by
  decide +kernel

instance (b : List String) (k : String) : Decidable (Continues b k) :=
  inferInstanceAs (Decidable (_ ∨ _))

theorem expected_begun : ∀ s ∈ table.states, ∀ b ∈ begun s,
    (∀ k ∈ table.expected s, Continues b k) ∧ (b = [] → "eof" ∈ table.expected s) ∧
      ∀ st ∈ statements, ∀ k ∈ st, b ++ [k] <+: st → k ∈ table.expected s := by
  decide +kernel

theorem expected_iff (hs : s ∈ table.states) (hb : b ∈ begun s) :
    k ∈ table.expected s ↔ Continues b k := by
  obtain ⟨hsound, hend, hstatement⟩ := expected_begun s hs b hb
  constructor
  · exact hsound k
  · rintro (⟨hnil, rfl⟩ | ⟨st, hst, hp⟩)
    · exact hend hnil
    · exact hstatement st hst k (hp.subset (by simp)) hp

theorem shift_begun : ∀ e ∈ table.actions, ∀ q ∈ table.states, e.2 = .shift q →
    ∀ b ∈ begun e.1.1, b ++ [e.1.2] ∈ begun q ∨ b ++ [e.1.2] ∈ statements ∧ [] ∈ begun q := by
  decide +kernel

theorem link_mem_states : ∀ l ∈ table.links, l.2.2 ∈ table.states := by decide +kernel

/-- Whole statements and the beginning of one have been read where a state is on top. -/
def Reached (w : List String) (s : Int) : Prop :=
  s ∈ table.states ∧ ∃ v b, Whole v ∧ b ∈ begun s ∧ w = v ++ b

theorem reached_start : Reached [] table.start :=
  ⟨by decide +kernel, [], [], whole_nil, by decide, rfl⟩

theorem Reached.link (h : Reached w s) {q : Int} {x : Symbol V} (hl : table.Link s x q)
    (hd : grammar.Derives [x.mark] r) : Reached (w ++ r) q := by
  obtain ⟨hs, v, b, hv, hb, rfl⟩ := h
  have hq := link_mem_states _ hl.mem_links
  refine ⟨hq, ?_⟩
  rw [List.append_assoc]
  cases x with
  | terminal t =>
    simp only [Symbol.mark, derives_terminal_iff, derives_nil_iff] at hd
    obtain ⟨_, rfl, rfl⟩ := hd
    rcases shift_begun _ (Table.mem_actions hl) q hq rfl b hb with hbegun | ⟨hst, hnil⟩
    · exact ⟨v, _, hv, hbegun, rfl⟩
    · exact ⟨_, [], hv.append (whole_statement hst), hnil, (List.append_nil _).symm⟩
  | nonterminal name value =>
    have hgoto := Table.mem_gotos hl
    simp only [table, List.mem_cons, List.not_mem_nil, or_false, Prod.mk.injEq] at hgoto
    rcases hgoto with ⟨⟨rfl, rfl⟩, rfl⟩ | ⟨⟨rfl, rfl⟩, rfl⟩ | ⟨⟨rfl, rfl⟩, rfl⟩
    · obtain rfl := List.mem_singleton.mp hb
      exact ⟨_, [], hv.append (whole_of_sentence hd), by decide, by simp⟩
    · obtain rfl := List.mem_singleton.mp hb
      exact ⟨_, [], hv.append (whole_statement (derives_statement_iff.mp hd)), by decide, by simp⟩
    · obtain rfl := List.mem_singleton.mp hb
      obtain ⟨k, hk, rfl⟩ := derives_value_iff.mp hd
      exact ⟨v, _, hv, List.mem_map_of_mem hk, rfl⟩

theorem Reached.expected_iff (h : Reached w s) :
    k ∈ table.expected s ↔ grammar.Viable (w ++ [k]) := by
  obtain ⟨hs, v, b, hv, hb, rfl⟩ := h
  obtain ⟨st, hst, hfront, hne⟩ := begun_front s hs b hb
  rw [viable_iff hv hst hfront hne]
  exact Settings.expected_iff hs hb

theorem Reached.sentence (h : Reached w s) : ∃ u, grammar.Sentence u ∧ w <+: u := by
  obtain ⟨hs, v, b, hv, hb, rfl⟩ := h
  obtain ⟨st, hst, hfront, -⟩ := begun_front s hs b hb
  exact ⟨v ++ st, sentence_iff.mpr (hv.append (whole_statement hst)),
    (List.prefix_append_right_inj v).mpr hfront⟩

end Settings

/-! ## The nesting grammar -/

namespace Nesting

open ContextFree

/-- Identifiers, and integers behind them. -/
def word (a b : Nat) : List String := List.replicate a "ident" ++ List.replicate b "integer"

variable {w r : List String} {k z : String} {s : Int} {a b n : Nat}

theorem word_wrap (a b : Nat) : "ident" :: (word a b ++ ["integer"]) = word (a + 1) (b + 1) := by
  rw [word, word, List.replicate_succ (n := a), List.replicate_succ' (n := b), ← List.append_assoc]
  rfl

theorem word_append (a b n : Nat) : word a 0 ++ word n b = word (a + n) b := by
  rw [word, List.replicate_zero, List.append_nil, word, word, ← List.append_assoc,
    List.replicate_append_replicate]

theorem sentence_iff : grammar.Sentence w ↔ ∃ n, w = word n n := by
  have halt : grammar.alternatives grammar.start =
      [[], [.terminal "ident", .nonterminal "S", .terminal "integer"]] := rfl
  have hpair : ∀ v, grammar.Derives [.terminal "ident", .nonterminal "S", .terminal "integer"] v ↔
      ∃ u, grammar.Sentence u ∧ v = "ident" :: (u ++ ["integer"]) := by
    intro v
    rw [derives_terminal_iff]
    constructor
    · rintro ⟨_, rfl, h⟩
      obtain ⟨u, _, rfl, hu, hinteger⟩ := derives_cons_iff.mp h
      obtain ⟨v, rfl, hnil⟩ := derives_terminal_iff.mp hinteger
      rw [derives_nil_iff.mp hnil]
      exact ⟨u, hu, rfl⟩
    · rintro ⟨u, hu, rfl⟩
      exact ⟨_, rfl, Derives.append hu (.token "integer")⟩
  have hstep : ∀ v, grammar.Sentence v ↔
      v = [] ∨ ∃ u, grammar.Sentence u ∧ v = "ident" :: (u ++ ["integer"]) := by
    intro v
    rw [ContextFree.Sentence, derives_nonterminal_iff, halt]
    simp only [List.mem_cons, List.not_mem_nil, or_false, exists_eq_or_imp, exists_eq_left,
      derives_nil_iff, hpair]
  constructor
  · -- On the number of tokens: the sentence within a pair has fewer.
    intro h
    induction hn : w.length using Nat.strongRecOn generalizing w with
    | ind n ih =>
      rcases (hstep w).mp h with rfl | ⟨u, hu, rfl⟩
      · exact ⟨0, rfl⟩
      · obtain ⟨n, rfl⟩ := ih u.length (by simp at hn; omega) hu rfl
        exact ⟨n + 1, word_wrap n n⟩
  · rintro ⟨n, rfl⟩
    induction n with
    | zero => exact (hstep _).mpr (Or.inl rfl)
    | succ n ih => exact (hstep _).mpr (Or.inr ⟨_, ih, (word_wrap n n).symm⟩)

theorem getElem?_word (a b : Nat) (z : String) (i : Nat) :
    (word a b ++ [z])[i]? = if i < a then some "ident" else if i < a + b then some "integer"
      else if i = a + b then some z else none := by
  simp only [word, List.getElem?_append, List.getElem?_replicate, List.length_append,
    List.length_replicate, List.getElem?_singleton]
  grind

theorem viable_behind (h : grammar.Viable (word a b ++ [k])) :
    (k = "ident" ∧ b = 0) ∨ (k = "integer" ∧ b < a) ∨ (k = "eof" ∧ a = b) := by
  obtain ⟨w, hw, hp⟩ := h
  obtain ⟨n, rfl⟩ := sentence_iff.mp hw
  have hlen : (word a b ++ [k]).length = a + b + 1 := by simp [word, Nat.add_assoc]
  have hsame : ∀ i < a + b + 1, (word a b ++ [k])[i]? = (word n n ++ ["eof"])[i]? := by
    intro i hi
    obtain ⟨v, hv⟩ := hp
    rw [← hv]
    exact (List.getElem?_append_left (hlen ▸ hi)).symm
  simp only [getElem?_word] at hsame
  -- The last identifier and the first integer tell how long the sentence is.
  have hident : a ≤ n := by
    have := hsame (a - 1) (by omega)
    grind
  have hinteger : 0 < b → n ≤ a := by
    have := hsame a (by omega)
    grind
  have htoken := hsame (a + b) (by omega)
  grind

/-- How many identifiers and integers have been read where a state is on top. -/
def Shape (s : Int) (a b : Nat) : Prop :=
  match s with
  | 0 => a = 0 ∧ b = 0
  | 1 => a = b
  | 2 => 0 < a ∧ b = 0
  | 3 => b < a
  | 4 => 0 < b ∧ b ≤ a
  | _ => False

theorem Shape.le (h : Shape s a b) : b ≤ a := by
  unfold Shape at h
  split at h
  case h_6 => exact h.elim
  all_goals omega

def Reached (w : List String) (s : Int) : Prop := ∃ a b, Shape s a b ∧ w = word a b

theorem reached_start : Reached [] table.start := ⟨0, 0, ⟨rfl, rfl⟩, rfl⟩

theorem Reached.link (h : Reached w s) {q : Int} {x : Symbol V} (hl : table.Link s x q)
    (hd : grammar.Derives [x.mark] r) : Reached (w ++ r) q := by
  obtain ⟨a, b, hs, rfl⟩ := h
  cases x with
  | terminal t =>
    simp only [Symbol.mark, derives_terminal_iff, derives_nil_iff] at hd
    obtain ⟨_, rfl, rfl⟩ := hd
    have ha := Table.mem_actions hl
    simp only [table, List.mem_cons, List.not_mem_nil, or_false, Prod.mk.injEq, reduceCtorEq,
      and_false, false_or, Action.shift.injEq] at ha
    rcases ha with ⟨⟨rfl, hk⟩, rfl⟩ | ⟨⟨rfl, hk⟩, rfl⟩ | ⟨⟨rfl, hk⟩, rfl⟩
    · obtain ⟨rfl, rfl⟩ := hs
      exact ⟨1, 0, ⟨Nat.one_pos, rfl⟩, by rw [hk]; rfl⟩
    · obtain ⟨hpos, rfl⟩ := hs
      refine ⟨a + 1, 0, ⟨Nat.succ_pos a, rfl⟩, ?_⟩
      rw [hk, ← word_append]
      rfl
    · refine ⟨a, b + 1, ⟨Nat.succ_pos b, hs⟩, ?_⟩
      rw [hk, word, word, List.append_assoc, List.replicate_succ']
  | nonterminal name value =>
    have hgoto := Table.mem_gotos hl
    simp only [table, List.mem_cons, List.not_mem_nil, or_false, Prod.mk.injEq] at hgoto
    rcases hgoto with ⟨⟨rfl, rfl⟩, rfl⟩ | ⟨⟨rfl, rfl⟩, rfl⟩
    · obtain ⟨n, rfl⟩ := sentence_iff.mp hd
      obtain ⟨rfl, rfl⟩ := hs
      exact ⟨n, n, rfl, rfl⟩
    · obtain ⟨n, rfl⟩ := sentence_iff.mp hd
      obtain ⟨hpos, rfl⟩ := hs
      exact ⟨a + n, n, Nat.lt_add_of_pos_left hpos, word_append a n n⟩

theorem Reached.sentence (h : Reached w s) : ∃ u, grammar.Sentence u ∧ w <+: u := by
  obtain ⟨a, b, hs, rfl⟩ := h
  refine ⟨word a a, sentence_iff.mpr ⟨a, rfl⟩, ?_⟩
  obtain ⟨n, rfl⟩ := Nat.exists_eq_add_of_le hs.le
  rw [word, word, List.prefix_append_right_inj, ← List.replicate_append_replicate]
  exact List.prefix_append _ _

theorem Reached.integer_mem (h : Reached w 4) : "integer" ∈ w := by
  obtain ⟨a, b, ⟨hb, -⟩, rfl⟩ := h
  simp [word, Nat.ne_of_gt hb]

theorem Reached.expected (h : Reached w s) (hw : s = 1 ∨ s = 3 → "integer" ∈ w)
    (hv : grammar.Viable (w ++ [k])) : k ∈ table.expected s := by
  obtain ⟨a, b, hs, rfl⟩ := h
  -- With an integer in it, the sentence in front is not the empty one.
  have hpos : s = 1 ∨ s = 3 → 0 < b := by simpa [word, Nat.pos_iff_ne_zero] using hw
  clear hw
  rcases viable_behind hv with ⟨rfl, hb⟩ | ⟨rfl, hlt⟩ | ⟨rfl, heq⟩
  -- In each state the numbers rule the token out, or the row has it.
  all_goals
    unfold Shape at hs
    split at hs
    case h_6 => exact hs.elim
    all_goals first | decide | omega

end Nesting

end ShiftReduce
