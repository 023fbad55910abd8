import ShiftReduce.Proofs.NestingLanguage
import ShiftReduce.Proofs.Safety

/-! # The bundled grammars are safe

The tables and rules of both bundled grammars go with their grammars. So whatever they are given to
read and to pass over, they come to an end, and nothing but a literal without a value makes them
fail.
-/

namespace ShiftReduce

open Machine (Answers)

/-! ## The nesting grammar -/

namespace Nesting

def grammar : ContextFree where
  start := "S"
  productions :=
    [⟨1, "S", []⟩, ⟨2, "S", [.terminal "ident", .nonterminal "S", .terminal "integer"]⟩]

/-- How many reductions can follow each other from a state on. -/
def rank (s : Int) : Nat := if s ∈ [0, 2, 4] then 1 else 0

theorem rank_lt (s : Int) : rank s < 2 := by
  unfold rank
  split <;> omega

theorem fits_table : table.fits grammar = true := by decide

theorem descends_table : table.descends grammar rank = true := by decide

theorem follows_grammar {m : Machine Value} (ht : m.table = table) (hr : m.rules = rules) :
    m.Follows grammar (fun _ _ => True) fun _ => False := by
  refine ⟨ht ▸ fits_table, ?_, ?_⟩
  · rw [hr]
    exact Rules.allProductions_of_entries (by simp [rules, Rule.ofValues])
  · intro p hp
    rw [hr]
    simp only [grammar, List.mem_cons, List.not_mem_nil, or_false] at hp
    rcases hp with rfl | rfl
    · exact ⟨_, rfl, fun args _ _ => Or.inl ⟨_, rfl, trivial⟩⟩
    · refine ⟨_, rfl, fun args hargs _ => Or.inl ?_⟩
      simp only [List.map_eq_cons_iff, List.map_eq_nil_iff] at hargs
      obtain ⟨x, _, rfl, -, v, _, rfl, -, y, _, rfl, -, rfl⟩ := hargs
      exact ⟨_, rfl, trivial⟩

end Nesting

/-! ## The settings language -/

namespace Settings

def grammar : ContextFree where
  start := "L"
  productions :=
    [⟨1, "L", []⟩,
     ⟨2, "L", [.nonterminal "L", .nonterminal "stmt"]⟩,
     ⟨3, "stmt", [.terminal "kw_set", .terminal "ident", .terminal "equal", .nonterminal "value",
        .terminal "semicolon"]⟩,
     ⟨4, "stmt", [.terminal "kw_unset", .terminal "ident", .terminal "semicolon"]⟩,
     ⟨5, "value", [.terminal "integer"]⟩,
     ⟨6, "value", [.terminal "float"]⟩,
     ⟨7, "value", [.terminal "string_d"]⟩,
     ⟨8, "value", [.terminal "string_s"]⟩,
     ⟨9, "value", [.terminal "ident"]⟩]

def rank (s : Int) : Nat :=
  if s ∈ [8, 15] then 2 else if s ∈ [0, 4, 10, 11, 12, 13, 14] then 1 else 0

theorem rank_lt (s : Int) : rank s < 3 := by
  unfold rank
  split
  · omega
  · split <;> omega

theorem fits_table : table.fits grammar = true := by decide

theorem descends_table : table.descends grammar rank = true := by decide

/-- The values that stand for statements. -/
inductive IsRow : Value → Prop
  | set (name : String) {v : Value} (hv : Settable v) : IsRow (Statement.set name v).toValue
  | unset (name : String) : IsRow (Statement.unset name).toValue

/-- What the values of the nonterminals are. -/
structure Meant (name : String) (v : Value) : Prop where
  block : name = "L" → ∃ es, v = .dict es
  row : name = "stmt" → IsRow v
  value : name = "value" → Settable v

/-- The productions for literals that can be without a value. -/
def Refusable (p : Production) : Prop := p.lhs = "value" ∧ p.id ∈ [5, 6, 7, 8]

theorem answers_append : ∃ eval,
    rules.lookup 2 = some (.production "L" 2 eval) ∧
      Answers Meant Refusable ⟨2, "L", [.nonterminal "L", .nonterminal "stmt"]⟩ eval := by
  refine ⟨_, rfl, fun args hargs hfits => Or.inl ?_⟩
  simp only [List.map_eq_cons_iff, List.map_eq_nil_iff] at hargs
  obtain ⟨x, _, rfl, hx, y, _, rfl, hy, rfl⟩ := hargs
  obtain ⟨u, rfl⟩ := Symbol.exists_of_mark_nonterminal hx
  obtain ⟨v, rfl⟩ := Symbol.exists_of_mark_nonterminal hy
  have hu : Meant "L" u := hfits (.nonterminal "L" u) (by simp)
  have hv : Meant "stmt" v := hfits (.nonterminal "stmt" v) (by simp)
  obtain ⟨es, rfl⟩ := hu.block rfl
  cases hv.row rfl with
  | set name hs => exact ⟨_, append_set es name hs, by simp, by simp, by simp⟩
  | unset name => exact ⟨_, append_unset es name, by simp, by simp, by simp⟩

theorem answers_value {r : Reading} (hr : r ∈ readings) : ∃ eval,
    rules.lookup r.rule = some (.production "value" 1 eval) ∧
      Answers Meant Refusable ⟨r.rule, "value", [.terminal r.kind]⟩ eval := by
  refine ⟨_, lookup_value hr, fun args hargs _ => ?_⟩
  simp only [List.map_eq_cons_iff, List.map_eq_nil_iff] at hargs
  obtain ⟨x, _, rfl, hx, rfl⟩ := hargs
  obtain ⟨t, rfl, hk⟩ := Symbol.exists_of_mark_terminal hx
  cases hc : r.convert (.text t.text) with
  | ok v =>
    have hv := settable_of_denotes ((denotes_iff hr hk v).mpr hc)
    exact Or.inl ⟨v, hc, by simp, by simp, fun _ => hv⟩
  | error f =>
    obtain ⟨reason, rfl⟩ := convert_error hr hc
    refine Or.inr ⟨⟨rfl, ?_⟩, reason, hc⟩
    rcases mem_readings hr with rfl | rfl | rfl | rfl | rfl
    · simp
    · simp
    · simp
    · simp
    · cases hc

theorem follows_grammar {m : Machine Value} (ht : m.table = table) (hr : m.rules = rules) :
    m.Follows grammar Meant Refusable := by
  refine ⟨ht ▸ fits_table, ?_, ?_⟩
  · rw [hr]
    exact Rules.allProductions_of_entries (by simp [rules, Rule.ofValues, Rule.ofValue])
  · intro p hp
    rw [hr]
    simp only [grammar, List.mem_cons, List.not_mem_nil, or_false] at hp
    rcases hp with rfl | rfl | rfl | rfl | rfl | rfl | rfl | rfl | rfl
    · exact ⟨_, rfl, fun _ _ _ => Or.inl ⟨_, rfl, fun _ => ⟨[], rfl⟩, by simp, by simp⟩⟩
    · exact answers_append
    · refine ⟨_, rfl, fun args hargs hfits => Or.inl ?_⟩
      simp only [List.map_eq_cons_iff, List.map_eq_nil_iff] at hargs
      obtain ⟨_, _, rfl, -, x, _, rfl, hx, _, _, rfl, -, y, _, rfl, hy, _, _, rfl, -, rfl⟩ := hargs
      obtain ⟨name, rfl, -⟩ := Symbol.exists_of_mark_terminal hx
      obtain ⟨v, rfl⟩ := Symbol.exists_of_mark_nonterminal hy
      have hv : Meant "value" v := hfits (.nonterminal "value" v) (by simp)
      exact ⟨_, rfl, by simp, fun _ => .set name.text (hv.value rfl), by simp⟩
    · refine ⟨_, rfl, fun args hargs _ => Or.inl ?_⟩
      simp only [List.map_eq_cons_iff, List.map_eq_nil_iff] at hargs
      obtain ⟨_, _, rfl, -, x, _, rfl, hx, _, _, rfl, -, rfl⟩ := hargs
      obtain ⟨name, rfl, -⟩ := Symbol.exists_of_mark_terminal hx
      exact ⟨_, rfl, by simp, fun _ => .unset name.text, by simp⟩
    · exact answers_value (r := ⟨"integer", 10, 5, Literal.integer⟩) (by simp [readings])
    · exact answers_value (r := ⟨"float", 11, 6, Literal.real⟩) (by simp [readings])
    · exact answers_value (r := ⟨"string_d", 12, 7, Literal.string⟩) (by simp [readings])
    · exact answers_value (r := ⟨"string_s", 13, 8, Literal.string⟩) (by simp [readings])
    · exact answers_value (r := ⟨"ident", 14, 9, Literal.reference⟩) (by simp [readings])

end Settings

/-! ## All inputs -/

theorem Machine.Follows.ends {V : Type} {m : Machine V} {G : ContextFree} {T : String → V → Prop}
    {R : Production → Prop} (hm : m.Follows G T R) {rank : Int → Nat} {bound : Nat}
    (hd : m.table.descends G rank = true) (hb : ∀ s, rank s < bound) {inputs : List Input}
    (hi : ∀ i ∈ inputs, i.Flows) :
    ∃ r d, m.Ends (m.start (.ofInputs inputs)) r d ∧
      ((∃ v, r = .ok (.accepted v)) ∨ (∃ e, r = .ok (.rejected (some e))) ∨
        ∃ p ∈ G.productions, R p ∧ ∃ fault, r = .error (.reduction fault) ∧ fault.rule = p.id ∧
          fault.lhs = p.lhs) := by
  have hts := Stream.tokens_ofInputs hi
  obtain ⟨r, d, hend⟩ := (hm.descends hd).ends hm.all hb (c := m.start (.ofInputs inputs)) hts
  exact ⟨r, d, hend, hm.ends_safely hts hend⟩

/-- A machine for a bundled grammar stops on all inputs that can be read, whatever it passes over.
It accepts or reports a syntax error, and only for the settings can it fail, on a literal without a
value. -/
theorem bundled_runs_end {g : Grammar} (hg : g ∈ Grammar.bundled) {inputs : List Input}
    (hi : ∀ i ∈ inputs, i.Flows) (skip : List String) (debug : Bool) :
    ∃ t, g.table = .ok t ∧
      let m : Machine Value := { table := t, rules := g.rules, skip := skip, debug := debug }
      ∃ r d, m.Ends (m.start (.ofInputs inputs)) r d ∧
        ((∃ v, r = .ok (.accepted v)) ∨ (∃ e, r = .ok (.rejected (some e))) ∨
          g = Grammar.settings ∧ ∃ fault, r = .error (.reduction fault) ∧
            fault.lhs = "value" ∧ fault.rule ∈ [5, 6, 7, 8]) := by
  simp only [Grammar.bundled, List.mem_cons, List.not_mem_nil, or_false] at hg
  rcases hg with rfl | rfl
  · refine ⟨Settings.table, Settings.table_settings, ?_⟩
    intro m
    have hm : m.Follows Settings.grammar _ _ := Settings.follows_grammar rfl rfl
    obtain ⟨r, d, hend, hacc | hrej | ⟨p, -, ⟨hlhs, hid⟩, fault, hf, hrule, hname⟩⟩ :=
      hm.ends Settings.descends_table Settings.rank_lt hi
    · exact ⟨r, d, hend, Or.inl hacc⟩
    · exact ⟨r, d, hend, Or.inr (Or.inl hrej)⟩
    · exact ⟨r, d, hend, Or.inr (Or.inr ⟨rfl, fault, hf, hname.trans hlhs, hrule ▸ hid⟩)⟩
  · refine ⟨Nesting.table, Nesting.table_nesting, ?_⟩
    intro m
    have hm : m.Follows Nesting.grammar _ _ := Nesting.follows_grammar rfl rfl
    obtain ⟨r, d, hend, hacc | hrej | ⟨p, -, hno, -⟩⟩ :=
      hm.ends Nesting.descends_table Nesting.rank_lt hi
    · exact ⟨r, d, hend, Or.inl hacc⟩
    · exact ⟨r, d, hend, Or.inr (Or.inl hrej)⟩
    · exact hno.elim

/-- An end in front of a setting without a value, and an input with nothing in it. -/
def uneven : List Input :=
  [.tokens [.token .eof, .token ⟨"kw_set", "set"⟩, .token ⟨"ident", "x"⟩, .token ⟨"equal", "="⟩,
     .token ⟨"integer", "one"⟩, .token ⟨"semicolon", ";"⟩] "first",
   .tokens [] "second"]

theorem bundled_runs_end_uneven :
    Grammar.settings ∈ Grammar.bundled ∧ (∀ i ∈ uneven, i.Flows) ∧
      ∃ t, Grammar.settings.table = .ok t ∧
        let m : Machine Value := { table := t, rules := Grammar.settings.rules, skip := ["eof"] }
        ∃ r d, m.Ends (m.start (.ofInputs uneven)) r d ∧
          ((∃ v, r = .ok (.accepted v)) ∨ (∃ e, r = .ok (.rejected (some e))) ∨
            ∃ fault, r = .error (.reduction fault) ∧ fault.lhs = "value" ∧
              fault.rule ∈ [5, 6, 7, 8]) := by
  have hg : Grammar.settings ∈ Grammar.bundled := by simp [Grammar.bundled]
  have hflows : ∀ i ∈ uneven, i.Flows := by
    simp only [uneven, List.forall_mem_cons]
    exact ⟨Stream.flows_list _ _, Stream.flows_list _ _, by simp⟩
  obtain ⟨t, ht, r, d, hend, hr⟩ := bundled_runs_end hg hflows ["eof"] false
  exact ⟨hg, hflows, t, ht, r, d, hend, hr.imp_right (Or.imp_right And.right)⟩

end ShiftReduce
