import ShiftReduce.Proofs.SettingsTable
import ShiftReduce.Proofs.Standing

/-! # The settings language is parsed exactly

`Program` says which tokens are statements, without a table. The machine accepts just these and
gives the settings that they lead to. Where the value of a statement cannot be read it fails, and
everything else it rejects with one report.
-/

namespace ShiftReduce.Settings

/-! ## The language -/

/-- The value that a token stands for. -/
inductive Denotes : Token → Value → Prop
  | integer {t : Token} {n : Int} (hk : t.kind = "integer")
      (hv : Number.readInteger t.text = .ok n) : Denotes t (.int n)
  | real {t : Token} {x : Number.Binary64} (hk : t.kind = "float")
      (hv : Number.readReal t.text = .ok x) : Denotes t (.real x)
  | string {t : Token} {s : String} (hk : t.kind = "string_d" ∨ t.kind = "string_s")
      (hv : Quoted.content t.text = .ok s) : Denotes t (.text s)
  | name {t : Token} (hk : t.kind = "ident") : Denotes t (.ref (.text t.text))

def valueKinds : List String := ["integer", "float", "string_d", "string_s", "ident"]

def Unreadable (t : Token) : Prop := t.kind ∈ valueKinds ∧ ∀ v, ¬ Denotes t v

/-- The tokens of a statement that sets a name, apart from its value. -/
structure SetsName (k x e s : Token) : Prop where
  keyword : k.kind = "kw_set"
  name : x.kind = "ident"
  equal : e.kind = "equal"
  semicolon : s.kind = "semicolon"

inductive Written : Statement → List Token → Prop
  | set {k x e t s : Token} {v : Value} (h : SetsName k x e s) (hv : Denotes t v) :
      Written (.set x.text v) [k, x, e, t, s]
  | unset {k x s : Token} (hk : k.kind = "kw_unset") (hx : x.kind = "ident")
      (hs : s.kind = "semicolon") : Written (.unset x.text) [k, x, s]

/-- The tokens that statements are written with, one after the other. -/
inductive Program : List Statement → List Token → Prop
  | nil : Program [] []
  | cons {s : Statement} {ss : List Statement} {p us : List Token} (hs : Written s p)
      (h : Program ss us) : Program (s :: ss) (p ++ us)

/-- Statements, and then one that sets a name to a value that cannot be read. -/
inductive Refused : List Token → Prop
  | here {k x e t s : Token} {us : List Token} (h : SetsName k x e s) (hv : Unreadable t) :
      Refused (k :: x :: e :: t :: s :: us)
  | later {s : Statement} {p us : List Token} (hs : Written s p) (h : Refused us) : Refused (p ++ us)

/-! ## Values -/

/-- How the machine reads a kind of value: the state behind its token, the rule, and what it does. -/
structure Reading where
  kind : String
  state : Int
  rule : Int
  convert : Value → Except Refusal Value

def readings : List Reading :=
  [⟨"integer", 10, 5, Literal.integer⟩, ⟨"float", 11, 6, Literal.real⟩,
   ⟨"string_d", 12, 7, Literal.string⟩, ⟨"string_s", 13, 8, Literal.string⟩,
   ⟨"ident", 14, 9, Literal.reference⟩]

theorem reading_of_kind {kind : String} (h : kind ∈ valueKinds) : ∃ r ∈ readings, r.kind = kind := by
  simp only [valueKinds, List.mem_cons, List.not_mem_nil, or_false] at h
  rcases h with rfl | rfl | rfl | rfl | rfl <;> simp [readings]

theorem mem_readings {r : Reading} (hr : r ∈ readings) :
    r = ⟨"integer", 10, 5, Literal.integer⟩ ∨ r = ⟨"float", 11, 6, Literal.real⟩ ∨
      r = ⟨"string_d", 12, 7, Literal.string⟩ ∨ r = ⟨"string_s", 13, 8, Literal.string⟩ ∨
      r = ⟨"ident", 14, 9, Literal.reference⟩ := by
  simpa [readings] using hr

theorem denotes_integer {t : Token} (hk : t.kind = "integer") (v : Value) :
    Denotes t v ↔ ∃ n, Number.readInteger t.text = .ok n ∧ v = .int n := by
  constructor
  · intro h
    cases h <;> simp_all
  · rintro ⟨n, hn, rfl⟩
    exact .integer hk hn

theorem denotes_real {t : Token} (hk : t.kind = "float") (v : Value) :
    Denotes t v ↔ ∃ x, Number.readReal t.text = .ok x ∧ v = .real x := by
  constructor
  · intro h
    cases h <;> simp_all
  · rintro ⟨x, hx, rfl⟩
    exact .real hk hx

theorem denotes_string {t : Token} (hk : t.kind = "string_d" ∨ t.kind = "string_s") (v : Value) :
    Denotes t v ↔ ∃ s, Quoted.content t.text = .ok s ∧ v = .text s := by
  constructor
  · intro h
    cases h <;> simp_all
  · rintro ⟨s, hs, rfl⟩
    exact .string hk hs

theorem denotes_name {t : Token} (hk : t.kind = "ident") (v : Value) :
    Denotes t v ↔ v = .ref (.text t.text) := by
  constructor
  · intro h
    cases h <;> simp_all
  · rintro rfl
    exact .name hk

theorem denotes_iff {r : Reading} (hr : r ∈ readings) {t : Token} (hk : t.kind = r.kind)
    (v : Value) : Denotes t v ↔ r.convert (.text t.text) = .ok v := by
  rcases mem_readings hr with rfl | rfl | rfl | rfl | rfl
  · rw [denotes_integer hk]
    simp only [Literal.integer]
    cases Number.readInteger t.text <;> simp [Access.refused, eq_comm]
  · rw [denotes_real hk]
    simp only [Literal.real]
    cases Number.readReal t.text <;> simp [Access.refused, eq_comm]
  · rw [denotes_string (Or.inl hk)]
    simp only [Literal.string]
    cases Quoted.content t.text <;> simp [Access.refused, eq_comm]
  · rw [denotes_string (Or.inr hk)]
    simp only [Literal.string]
    cases Quoted.content t.text <;> simp [Access.refused, eq_comm]
  · rw [denotes_name hk]
    simp [Literal.reference, eq_comm]

theorem convert_error {r : Reading} (hr : r ∈ readings) {text : String} {f : Refusal}
    (h : r.convert (.text text) = .error f) : ∃ reason, f = .operands reason := by
  rcases mem_readings hr with rfl | rfl | rfl | rfl | rfl
  · simp only [Literal.integer, Access.refused] at h
    cases hn : Number.readInteger text <;> simp_all [eq_comm]
  · simp only [Literal.real, Access.refused] at h
    cases hn : Number.readReal text <;> simp_all [eq_comm]
  · simp only [Literal.string, Access.refused] at h
    cases hn : Quoted.content text <;> simp_all [eq_comm]
  · simp only [Literal.string, Access.refused] at h
    cases hn : Quoted.content text <;> simp_all [eq_comm]
  · simp [Literal.reference] at h

theorem convert_unreadable {r : Reading} (hr : r ∈ readings) {t : Token} (hk : t.kind = r.kind)
    (h : Unreadable t) : ∃ reason, r.convert (.text t.text) = .error (.operands reason) := by
  cases hc : r.convert (.text t.text) with
  | ok v => exact absurd ((denotes_iff hr hk v).mpr hc) (h.2 v)
  | error f =>
    obtain ⟨reason, rfl⟩ := convert_error hr hc
    exact ⟨reason, rfl⟩

theorem settable_of_denotes {t : Token} {v : Value} (h : Denotes t v) : Settable v := by
  cases h with
  | integer => trivial
  | real => trivial
  | string => trivial
  | name => simp [Settable, Value.unfit?]

/-! ## Between statements -/

def machine (debug : Bool) : Machine Value := { table := table, rules := rules, debug := debug }

def block (es : Entries) : Symbol Value := .nonterminal "L" (.dict es)

/-- The stacks where a statement may begin: at the start, or behind a statement that is complete but
not yet reduced. The entries are those that all statements so far lead to. -/
inductive Boundary : Entries → List (Symbol Value) → List Int → Prop
  | start : Boundary [] [] [0]
  | set (es : Entries) (k x e s : Token) {v : Value} (hv : Settable v) :
      Boundary (apply es (.set x.text v))
        [.terminal s, .nonterminal "value" v, .terminal e, .terminal x, .terminal k, block es]
        [15, 9, 7, 5, 2, 1, 0]
  | unset (es : Entries) (k x s : Token) :
      Boundary (apply es (.unset x.text)) [.terminal s, .terminal x, .terminal k, block es]
        [8, 6, 3, 1, 0]

def followers : List String := ["kw_set", "kw_unset", "eof"]

/-- A state behind a statement does the same for all that can follow. -/
def followRow (id : Int) : List (String × Action) := followers.map fun k => (k, .reduce id)

theorem action?_of_follows {p id : Int} (hrow : table.row p = followRow id) {kind : String}
    (h : kind ∈ followers) : table.action? p kind = some (.reduce id) := by
  rw [Table.action?_eq_row, hrow]
  simp only [followers, List.mem_cons, List.not_mem_nil, or_false] at h
  rcases h with rfl | rfl | rfl <;> rfl

theorem action?_of_not_follows {p id : Int} (hrow : table.row p = followRow id) {kind : String}
    (h : kind ∉ followers) : table.action? p kind = none :=
  Table.action?_eq_none hrow (by simpa [followRow] using h)

variable {debug : Bool} {c : Config Value} {es : Entries} {vs : List (Symbol Value)}
  {ss : List Int} {t z : Token} {us rest : List Token}

theorem stands_append {v : Value} {es' : Entries}
    (h : (machine debug).Stands c [.nonterminal "stmt" v, block es] [4, 1, 0] (t :: us))
    (ht : t.kind ∈ followers) (hv : append [.dict es, v] = .ok (.dict es')) :
    ∃ d, (machine debug).Leads c d ∧ (machine debug).Stands d [block es'] [1, 0] (t :: us) := by
  have ha : table.action? 4 t.kind = some (.reduce 2) := action?_of_follows (by decide) ht
  exact h.reduce ha rfl (by simp) hv rfl rfl

theorem Boundary.enter (hb : Boundary es vs ss) (h : (machine debug).Stands c vs ss (t :: us))
    (ht : t.kind ∈ followers) :
    ∃ d, (machine debug).Leads c d ∧ (machine debug).Stands d [block es] [1, 0] (t :: us) := by
  cases hb with
  | start =>
    have ha : table.action? 0 t.kind = some (.reduce 1) := action?_of_follows (by decide) ht
    exact h.reduce ha rfl (by simp) rfl rfl rfl
  | set es k x e s hv =>
    have ha : table.action? 15 t.kind = some (.reduce 3) := action?_of_follows (by decide) ht
    obtain ⟨d, hlead, hd⟩ := h.reduce ha rfl (by simp) rfl rfl rfl
    obtain ⟨d', hlead', hd'⟩ := stands_append hd ht (append_set es x.text hv)
    exact ⟨d', hlead.trans hlead', hd'⟩
  | unset es k x s =>
    have ha : table.action? 8 t.kind = some (.reduce 4) := action?_of_follows (by decide) ht
    obtain ⟨d, hlead, hd⟩ := h.reduce ha rfl (by simp) rfl rfl rfl
    obtain ⟨d', hlead', hd'⟩ := stands_append hd ht (append_unset es x.text)
    exact ⟨d', hlead.trans hlead', hd'⟩

theorem Boundary.reject (hb : Boundary es vs ss) (h : (machine debug).Stands c vs ss (t :: us))
    (ht : t.kind ∉ followers) : (machine debug).Rejects c := by
  cases hb with
  | start =>
    have hrow : table.row 0 = followRow 1 := by decide
    exact h.reject (action?_of_not_follows hrow ht)
  | set es k x e s hv =>
    have hrow : table.row 15 = followRow 3 := by decide
    exact h.reject (action?_of_not_follows hrow ht)
  | unset es k x s =>
    have hrow : table.row 8 = followRow 4 := by decide
    exact h.reject (action?_of_not_follows hrow ht)

/-! ## One statement -/

theorem Denotes.kind_mem {v : Value} (h : Denotes t v) : t.kind ∈ valueKinds := by
  cases h with
  | integer hk => simp [valueKinds, hk]
  | real hk => simp [valueKinds, hk]
  | string hk => rcases hk with hk | hk <;> simp [valueKinds, hk]
  | name hk => simp [valueKinds, hk]

theorem row_value : table.row 7 = readings.map fun r => (r.kind, .shift r.state) := by decide

theorem action?_value {r : Reading} (hr : r ∈ readings) :
    table.action? 7 r.kind = some (.shift r.state) := by
  rcases mem_readings hr with rfl | rfl | rfl | rfl | rfl <;> rfl

theorem row_behind_value {r : Reading} (hr : r ∈ readings) :
    table.row r.state = [("semicolon", .reduce r.rule)] := by
  rcases mem_readings hr with rfl | rfl | rfl | rfl | rfl <;> decide

theorem lookup_value {r : Reading} (hr : r ∈ readings) :
    rules.lookup r.rule = some (.ofValue "value" r.convert) := by
  rcases mem_readings hr with rfl | rfl | rfl | rfl | rfl <;> rfl

theorem Boundary.due (hb : Boundary es vs ss) {k x e s : Token} (hset : SetsName k x e s)
    {r : Reading} (hr : r ∈ readings) (ht : t.kind = r.kind)
    (h : (machine debug).Stands c vs ss (k :: x :: e :: t :: s :: us)) :
    ∃ d, (machine debug).Leads c d ∧ (machine debug).Stands d
      [.terminal t, .terminal e, .terminal x, .terminal k, block es] [r.state, 7, 5, 2, 1, 0]
      (s :: us) ∧
      table.action? r.state s.kind = some (.reduce r.rule) := by
  obtain ⟨d₀, lead₀, h₀⟩ := hb.enter h (by simp [followers, hset.keyword])
  obtain ⟨d₁, lead₁, h₁⟩ := h₀.shift (q := 2) (by rw [hset.keyword]; rfl)
  obtain ⟨d₂, lead₂, h₂⟩ := h₁.shift (q := 5) (by rw [hset.name]; rfl)
  obtain ⟨d₃, lead₃, h₃⟩ := h₂.shift (q := 7) (by rw [hset.equal]; rfl)
  obtain ⟨d₄, lead₄, h₄⟩ := h₃.shift (q := r.state) (by rw [ht]; exact action?_value hr)
  refine ⟨d₄, lead₀.trans (lead₁.trans (lead₂.trans (lead₃.trans lead₄))), h₄, ?_⟩
  rw [Table.action?_eq_row, row_behind_value hr, hset.semicolon]
  rfl

theorem Written.leads {st : Statement} {p : List Token} (hs : Written st p)
    (hb : Boundary es vs ss) (h : (machine debug).Stands c vs ss (p ++ us)) :
    ∃ d vs' ss', (machine debug).Leads c d ∧ Boundary (apply es st) vs' ss' ∧
      (machine debug).Stands d vs' ss' us := by
  cases hs with
  | @set k x e t s v hset hv =>
    obtain ⟨r, hr, hk⟩ := reading_of_kind hv.kind_mem
    have hconv : r.convert (.text t.text) = .ok v := (denotes_iff hr hk.symm v).mp hv
    obtain ⟨d₁, lead₁, h₁, ha⟩ := hb.due hset hr hk.symm h
    obtain ⟨d₂, lead₂, h₂⟩ := h₁.reduce ha (lookup_value hr) (by simp) hconv rfl rfl
    obtain ⟨d₃, lead₃, h₃⟩ := h₂.shift (q := 15) (by rw [hset.semicolon]; rfl)
    exact ⟨d₃, _, _, lead₁.trans (lead₂.trans lead₃),
      .set es k x e s (settable_of_denotes hv), h₃⟩
  | @unset k x s hk hx hs =>
    obtain ⟨d₀, lead₀, h₀⟩ := hb.enter h (by simp [followers, hk])
    obtain ⟨d₁, lead₁, h₁⟩ := h₀.shift (q := 3) (by rw [hk]; rfl)
    obtain ⟨d₂, lead₂, h₂⟩ := h₁.shift (q := 6) (by rw [hx]; rfl)
    obtain ⟨d₃, lead₃, h₃⟩ := h₂.shift (q := 8) (by rw [hs]; rfl)
    exact ⟨d₃, _, _, lead₀.trans (lead₁.trans (lead₂.trans lead₃)), .unset es k x s, h₃⟩

/-! ## Whole inputs -/

theorem Program.accepted {sts : List Statement} (hp : Program sts us) (hz : z.kind = "eof")
    (hb : Boundary es vs ss) (h : (machine debug).Stands c vs ss (us ++ z :: rest)) :
    ∃ d, (machine debug).Ends c (.ok (.accepted (.value (.dict (applyAll es sts))))) d := by
  induction hp generalizing c es vs ss with
  | nil =>
    obtain ⟨d, hlead, hd⟩ := hb.enter h (by simp [followers, hz])
    obtain ⟨d', hend⟩ := hd.accept (by rw [hz]; rfl)
    exact ⟨d', hlead.ends hend⟩
  | cons hs _ ih =>
    rw [List.append_assoc] at h
    obtain ⟨d, vs', ss', hlead, hb', hd⟩ := hs.leads hb h
    obtain ⟨d', hend⟩ := ih hb' hd
    exact ⟨d', hlead.ends hend⟩

theorem Program.outcome {sts : List Statement} (hp : Program sts us) (hz : z.kind = "eof")
    (hb : Boundary es vs ss) (h : (machine debug).Stands c vs ss (us ++ z :: rest))
    {r : Except Failure (Machine.Outcome Value)} {d : Config Value}
    (hend : (machine debug).Ends c r d) :
    r = .ok (.accepted (.value (.dict (applyAll es sts)))) := by
  obtain ⟨d', hend'⟩ := hp.accepted hz hb h
  exact (hend.unique hend').1

theorem Refused.fails (hu : Refused us) (hb : Boundary es vs ss)
    (h : (machine debug).Stands c vs ss (us ++ rest)) :
    ∃ d f, (machine debug).Ends c (.error (.reduction f)) d := by
  induction hu generalizing c es vs ss with
  | @here k x e t s us hset ht =>
    obtain ⟨r, hr, hk⟩ := reading_of_kind ht.1
    obtain ⟨reason, hconv⟩ := convert_unreadable hr hk.symm ht
    obtain ⟨d₁, lead₁, h₁, ha⟩ := hb.due hset hr hk.symm h
    obtain ⟨d₂, f, hend⟩ := h₁.refuse ha (lookup_value hr) (by simp) (by simp) hconv
    exact ⟨d₂, f, lead₁.ends hend⟩
  | later hs _ ih =>
    rw [List.append_assoc] at h
    obtain ⟨d, vs', ss', hlead, hb', hd⟩ := hs.leads hb h
    obtain ⟨d', f, hend⟩ := ih hb' hd
    exact ⟨d', f, hlead.ends hend⟩

theorem Refused.outcome (hu : Refused us) (hb : Boundary es vs ss)
    (h : (machine debug).Stands c vs ss (us ++ rest))
    {r : Except Failure (Machine.Outcome Value)} {d : Config Value}
    (hend : (machine debug).Ends c r d) : ∃ f, r = .error (.reduction f) := by
  obtain ⟨d', f, hend'⟩ := hu.fails hb h
  exact ⟨f, (hend.unique hend').1⟩

theorem SetsName.of_stands {k : Token} (hk : k.kind = "kw_set") (hz : z.kind = "eof")
    (h : (machine debug).Stands c [block es] [1, 0] (k :: us ++ z :: rest)) :
    (machine debug).Rejects c ∨ ∃ x e t s us', us = x :: e :: t :: s :: us' ∧ SetsName k x e s ∧
      t.kind ∈ valueKinds := by
  obtain ⟨d₁, lead₁, h₁⟩ := h.shift (q := 2) (by rw [hk]; rfl)
  obtain hrej | ⟨x, us₂, d₂, rfl, hx, lead₂, h₂⟩ :=
    h₁.expect (k := "ident") (q := 5) rfl (by simp [hz])
  · exact Or.inl (lead₁.rejects hrej)
  obtain hrej | ⟨e, us₃, d₃, rfl, he, lead₃, h₃⟩ :=
    h₂.expect (k := "equal") (q := 7) rfl (by simp [hz])
  · exact Or.inl ((lead₁.trans lead₂).rejects hrej)
  have lead := lead₁.trans (lead₂.trans lead₃)
  have hnone : ∀ {kind : String}, kind ∉ valueKinds → table.action? 7 kind = none := fun hn =>
    Table.action?_eq_none row_value (by simpa [readings, valueKinds] using hn)
  cases us₃ with
  | nil => exact Or.inl (lead.rejects (h₃.reject (hnone (by simp [hz, valueKinds]))))
  | cons t us₄ =>
    by_cases ht : t.kind ∈ valueKinds
    · obtain ⟨r, hr, hrk⟩ := reading_of_kind ht
      obtain ⟨d₄, lead₄, h₄⟩ := h₃.shift (q := r.state) (by rw [← hrk]; exact action?_value hr)
      have hnone' : ∀ {kind : String}, kind ≠ "semicolon" → table.action? r.state kind = none :=
        fun hn => Table.action?_eq_none (row_behind_value hr) (by simpa using hn)
      cases us₄ with
      | nil =>
        exact Or.inl ((lead.trans lead₄).rejects (h₄.reject (hnone' (by simp [hz]))))
      | cons s us₅ =>
        by_cases hs : s.kind = "semicolon"
        · exact Or.inr ⟨x, e, t, s, us₅, rfl, ⟨hk, hx, he, hs⟩, ht⟩
        · exact Or.inl ((lead.trans lead₄).rejects (h₄.reject (hnone' hs)))
    · exact Or.inl (lead.rejects (h₃.reject (hnone ht)))

theorem Written.unset_of_stands {k : Token} (hk : k.kind = "kw_unset") (hz : z.kind = "eof")
    (h : (machine debug).Stands c [block es] [1, 0] (k :: us ++ z :: rest)) :
    (machine debug).Rejects c ∨ ∃ x s us', us = x :: s :: us' ∧
      Written (.unset x.text) [k, x, s] := by
  obtain ⟨d₁, lead₁, h₁⟩ := h.shift (q := 3) (by rw [hk]; rfl)
  obtain hrej | ⟨x, us₂, d₂, rfl, hx, lead₂, h₂⟩ :=
    h₁.expect (k := "ident") (q := 6) rfl (by simp [hz])
  · exact Or.inl (lead₁.rejects hrej)
  obtain hrej | ⟨s, us₃, d₃, rfl, hs, lead₃, h₃⟩ :=
    h₂.expect (k := "semicolon") (q := 8) rfl (by simp [hz])
  · exact Or.inl ((lead₁.trans lead₂).rejects hrej)
  · exact Or.inr ⟨x, s, us₃, rfl, .unset hk hx hs⟩

/-- What a machine makes of the tokens in front of an end. -/
def Judged (debug : Bool) (c : Config Value) (us : List Token) : Prop :=
  (∃ sts, Program sts us) ∨ Refused us ∨ (machine debug).Rejects c

theorem Judged.of_written {d : Config Value} {st : Statement} {p : List Token} (hs : Written st p)
    (hlead : (machine debug).Leads c d) (h : Judged debug d us) : Judged debug c (p ++ us) := by
  rcases h with ⟨sts, hp⟩ | hu | hrej
  · exact Or.inl ⟨st :: sts, .cons hs hp⟩
  · exact Or.inr (Or.inl (.later hs hu))
  · exact Or.inr (Or.inr (hlead.rejects hrej))

/-- At a boundary the machine goes on by one whole statement, or its run is over. -/
theorem judged (heof : ∀ t ∈ us, t.kind ≠ "eof") (hz : z.kind = "eof") (hb : Boundary es vs ss)
    (h : (machine debug).Stands c vs ss (us ++ z :: rest)) : Judged debug c us := by
  -- On the number of tokens, since a statement takes three or five of them.
  induction hn : us.length using Nat.strongRecOn generalizing us c es vs ss with
  | ind n ih =>
    have next : ∀ {st : Statement} {p us' : List Token}, us = p ++ us' → p ≠ [] → Written st p →
        Judged debug c us := by
      intro st p us' hus hp hs
      subst hus
      rw [List.append_assoc] at h
      obtain ⟨d, vs', ss', hlead, hb', hd⟩ := hs.leads hb h
      have hlt : us'.length < n := by
        have := List.length_pos_iff.mpr hp
        rw [← hn, List.length_append]
        omega
      exact .of_written hs hlead
        (ih _ hlt (fun t ht => heof t (List.mem_append_right p ht)) hb' hd rfl)
    cases us with
    | nil => exact Or.inl ⟨[], .nil⟩
    | cons k us =>
      by_cases hk : k.kind ∈ followers
      · obtain ⟨d, hlead, hd⟩ := hb.enter h hk
        have hke : k.kind ≠ "eof" := heof k (List.mem_cons_self ..)
        simp only [followers, List.mem_cons, List.not_mem_nil, or_false, hke] at hk
        rcases hk with hk | hk
        · obtain hrej | ⟨x, e, t, s, us', rfl, hset, ht⟩ := SetsName.of_stands hk hz hd
          · exact Or.inr (Or.inr (hlead.rejects hrej))
          -- Whether the value can be read only matters once the semicolon is there.
          · by_cases hv : ∃ v, Denotes t v
            · obtain ⟨v, hv⟩ := hv
              exact next (p := [k, x, e, t, s]) rfl (by simp) (.set hset hv)
            · exact Or.inr (Or.inl (.here hset ⟨ht, fun v hd => hv ⟨v, hd⟩⟩))
        · obtain hrej | ⟨x, s, us', rfl, hs⟩ := Written.unset_of_stands hk hz hd
          · exact Or.inr (Or.inr (hlead.rejects hrej))
          · exact next (p := [k, x, s]) rfl (by simp) hs
      · exact Or.inr (Or.inr (hb.reject h hk))

/-- The tokens that count: those before an end of input, without line ends. -/
def significant (ts : List Token) : List Token :=
  (ts.takeWhile fun t => t.kind != "eof").filter fun t => t.kind != "nl"

theorem significant_ne_eof (ts : List Token) : ∀ t ∈ significant ts, t.kind ≠ "eof" := by
  intro t ht
  have hmem : t ∈ ts.takeWhile fun t => t.kind != "eof" := (List.mem_filter.mp ht).1
  have hp := List.all_eq_true.mp List.all_takeWhile t hmem
  simpa using hp

theorem filter_delivered (ts : List Token) :
    ∃ z rest, z.kind = "eof" ∧ (ts ++ [Token.eof]).filter (fun t => t.kind != "nl") =
      significant ts ++ z :: rest := by
  induction ts with
  | nil => exact ⟨Token.eof, [], rfl, rfl⟩
  | cons t ts ih =>
    by_cases he : t.kind = "eof"
    · refine ⟨t, (ts ++ [Token.eof]).filter fun t => t.kind != "nl", he, ?_⟩
      simp [significant, he]
    · obtain ⟨z, rest, hz, ih⟩ := ih
      refine ⟨z, rest, hz, ?_⟩
      unfold significant at ih ⊢
      by_cases hn : t.kind = "nl"
      · simpa [hn] using ih
      · simpa [he, hn] using ih

theorem stands_of_tokens {m : Machine Value} (hskip : m.skip = ["nl"]) {ts : List Token}
    {stream : Stream} {xs : List (Token × Location)} (hxs : stream.tokens = .ok xs)
    (hts : xs.map Prod.fst = ts ++ [Token.eof]) :
    ∃ z rest, z.kind = "eof" ∧
      m.Stands (m.start stream) [] [m.table.start] (significant ts ++ z :: rest) := by
  obtain ⟨z, rest, hz, hus⟩ := filter_delivered ts
  have hkept : ∀ us, m.unskipped us = us.filter fun t => t.kind != "nl" := fun us => by
    simp only [Machine.unskipped, hskip, List.contains_cons, List.contains_nil, Bool.or_false, bne]
  exact ⟨z, rest, hz, rfl, rfl, ⟨xs, hxs, by rw [← hus, hkept, hts]⟩, rfl, rfl⟩

theorem stands_significant {m : Machine Value} (hskip : m.skip = ["nl"]) (ts : List Token)
    (name : String) :
    ∃ z rest, z.kind = "eof" ∧ m.Stands
      (m.start (.ofInputs [Input.tokens (ts.map .token) name])) [] [m.table.start]
      (significant ts ++ z :: rest) :=
  stands_of_tokens hskip (Stream.tokens_list ts name) (by simp [Function.comp_def])

theorem stands_start (ts : List Token) (name : String) (debug : Bool) :
    ∃ z rest, z.kind = "eof" ∧ (machine debug).Stands
      ((machine debug).start (.ofInputs [Input.tokens (ts.map .token) name])) [] [0]
      (significant ts ++ z :: rest) :=
  stands_significant rfl ts name

/-- Just the programs are accepted, a value that cannot be read is a failure, and all else is a
syntax error that is reported once. -/
theorem settings_parsed_exactly (ts : List Token) (name : String) (debug : Bool) :
    ∃ t, Grammar.settings.table = .ok t ∧
      let m : Machine Value := { table := t, rules := Grammar.settings.rules, debug := debug }
      ∃ r d, m.Parses (m.start (.ofInputs [Input.tokens (ts.map .token) name])) r d ∧
        ((∃ v, r = .ok (.accepted v)) ↔ ∃ sts, Program sts (significant ts)) ∧
        (∀ sts, Program sts (significant ts) →
          r = .ok (.accepted (.value (.dict (applyAll [] sts))))) ∧
        ((∃ f, r = .error (.reduction f)) ↔ Refused (significant ts)) ∧
        ((¬ ∃ sts, Program sts (significant ts)) → ¬ Refused (significant ts) →
          ∃ e, r = .ok (.rejected (some e)) ∧ d.reports = [e]) := by
  refine ⟨table, table_settings, ?_⟩
  obtain ⟨z, rest, hz, h⟩ := stands_start ts name debug
  rcases judged (significant_ne_eof ts) hz .start h with ⟨sts, hp⟩ | hu | ⟨d, e, hend, hrep⟩
  · obtain ⟨d, hend⟩ := hp.accepted hz .start h
    exact ⟨_, d, hend.parses validate_rules, ⟨fun _ => ⟨sts, hp⟩, fun _ => ⟨_, rfl⟩⟩,
      fun sts' hp' => hp'.outcome hz .start h hend,
      ⟨by simp, fun hu => hu.outcome .start h hend⟩, fun hn => absurd ⟨sts, hp⟩ hn⟩
  · obtain ⟨d, f, hend⟩ := hu.fails .start h
    refine ⟨_, d, hend.parses validate_rules, ⟨by simp, ?_⟩,
      fun sts hp => hp.outcome hz .start h hend, ⟨fun _ => hu, fun _ => ⟨f, rfl⟩⟩,
      fun _ hn => absurd hu hn⟩
    rintro ⟨sts, hp⟩
    exact ⟨_, hp.outcome hz .start h hend⟩
  · refine ⟨_, d, hend.parses validate_rules, ⟨by simp, ?_⟩,
      fun sts hp => hp.outcome hz .start h hend,
      ⟨by simp, fun hu => hu.outcome .start h hend⟩, fun _ _ => ⟨e, rfl, hrep⟩⟩
    rintro ⟨sts, hp⟩
    exact ⟨_, hp.outcome hz .start h hend⟩

end ShiftReduce.Settings
