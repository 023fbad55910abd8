import ShiftReduce.Proofs.SettingsLanguage

/-! # The nesting grammar is parsed exactly

A sentence is a number of identifiers and then as many integers. The machine keeps the identifiers
that are still open, and closes the innermost of them with each integer. Just the sentences are
accepted, and everything else is rejected with one report.
-/

namespace ShiftReduce.Nesting

open Settings (significant significant_ne_eof stands_significant)

/-! ## The table -/

def table : Table where
  actions :=
    [((0, "ident"), .shift 2), ((0, "eof"), .reduce 1), ((1, "eof"), .accept),
     ((2, "ident"), .shift 2), ((2, "integer"), .reduce 1), ((3, "integer"), .shift 4),
     ((4, "integer"), .reduce 2), ((4, "eof"), .reduce 2)]
  gotos := [((0, "S"), 1), ((2, "S"), 3)]
  start := 0
  name := "<grammars>/demo.tbl"

theorem ofText_tableText :
    (Table.ofText tableText "<grammars>/demo.tbl" 0).toOption = some table := by
  unfold Table.ofText tableText
  simp only [-String.reduceAppend, String.toList_append]
  decide +kernel

theorem table_nesting : Grammar.nesting.table = .ok table := by
  have hpath : Grammar.nesting.tablePath = "<grammars>/demo.tbl" := by decide
  rw [Grammar.table, hpath]
  exact Table.parse_of_toOption ofText_tableText

theorem validate_rules : rules.validate table = .ok () := rfl

/-! ## The language -/

structure Sentence (xs ys us : List Token) : Prop where
  split : us = xs ++ ys
  names : ∀ x ∈ xs, x.kind = "ident"
  numbers : ∀ y ∈ ys, y.kind = "integer"
  count : ys.length = xs.length

/-- The pairs of a sentence from the outside in, and the empty sentence within. -/
def pairsText (ps : List (Token × Token)) : String :=
  " -> ".intercalate (ps.map (fun p => s!"({p.1.text},{p.2.text})") ++ ["()"])

theorem pairsText_cons (x y : Token) (ps : List (Token × Token)) :
    pairsText ((x, y) :: ps) = s!"({x.text},{y.text}) -> {pairsText ps}" := by
  obtain ⟨s, ss, hs⟩ : ∃ s ss,
      ps.map (fun p : Token × Token => s!"({p.1.text},{p.2.text})") ++ ["()"] = s :: ss :=
    List.exists_cons_of_ne_nil (by simp)
  unfold pairsText
  rw [List.map_cons, List.cons_append, hs, String.intercalate_cons_cons]
  change "(" ++ x.text ++ "," ++ y.text ++ ")" ++ " -> " ++ _ =
    "(" ++ x.text ++ "," ++ y.text ++ (")" ++ " -> ") ++ " -> ".intercalate (s :: ss)
  simp only [String.append_assoc]

/-! ## The stacks -/

def machine (debug : Bool) : Machine Value := { table := table, rules := rules, debug := debug }

/-- The stacks behind the names that are open, the innermost first. -/
inductive Opened : List Token → List (Symbol Value) → List Int → Prop
  | start : Opened [] [] [0]
  | name {xs : List Token} {vs : List (Symbol Value)} {ss : List Int} {x : Token}
      (hx : x.kind = "ident") (h : Opened xs vs ss) :
      Opened (x :: xs) (.terminal x :: vs) (2 :: ss)

/-- A sentence that has been read, with its pairs. -/
def sentence (ps : List (Token × Token)) : Symbol Value := .nonterminal "S" (.text (pairsText ps))

/-- The state behind a sentence: one name is left to be closed, or none is. -/
def stateBehind : List Token → Int
  | [] => 1
  | _ :: _ => 3

variable {debug : Bool} {c : Config Value} {xs ys us rest : List Token} {vs : List (Symbol Value)}
  {ss : List Int} {ps : List (Token × Token)} {t x y z : Token}

theorem Opened.top (ho : Opened xs vs ss) :
    ∃ p ss', ss = p :: ss' ∧ table.action? p "ident" = some (.shift 2) ∧
      table.goto? p "S" = some (stateBehind xs) := by
  cases ho with
  | start => exact ⟨0, [], rfl, rfl, rfl⟩
  | name => exact ⟨2, _, rfl, rfl, rfl⟩

theorem Opened.names (ho : Opened xs vs ss) : ∀ x ∈ xs, x.kind = "ident" := by
  induction ho with
  | start => simp
  | name hx _ ih => simpa [hx] using ih

/-- What stands behind the last name: the end if none is open, and else an integer. -/
def follower : List Token → String
  | [] => "eof"
  | _ :: _ => "integer"

/-! ## One token -/

theorem Opened.open (ho : Opened xs vs ss) (h : (machine debug).Stands c vs ss (t :: us))
    (ht : t.kind = "ident") :
    ∃ d, (machine debug).Leads c d ∧ (machine debug).Stands d (.terminal t :: vs) (2 :: ss) us := by
  obtain ⟨p, ss', rfl, hshift, -⟩ := ho.top
  apply h.shift
  rw [ht]
  exact hshift

theorem Opened.innermost (ho : Opened xs vs ss) (h : (machine debug).Stands c vs ss (t :: us))
    (ht : t.kind = follower xs) :
    ∃ d, (machine debug).Leads c d ∧
      (machine debug).Stands d (sentence [] :: vs) (stateBehind xs :: ss) (t :: us) := by
  have hreduce : ∀ {p ss'}, ss = p :: ss' → table.action? p t.kind = some (.reduce 1) →
      table.goto? p "S" = some (stateBehind xs) → ∃ d, (machine debug).Leads c d ∧
        (machine debug).Stands d (sentence [] :: vs) (stateBehind xs :: ss) (t :: us) := by
    rintro p ss' rfl ha hg
    exact h.reduce ha rfl (Nat.zero_le _) rfl rfl hg
  cases ho with
  | start => exact hreduce rfl (by rw [ht]; rfl) rfl
  | name => exact hreduce rfl (by rw [ht]; rfl) rfl

theorem Opened.close (ho : Opened xs vs ss)
    (h : (machine debug).Stands c (.terminal y :: sentence ps :: .terminal x :: vs)
      (4 :: 3 :: 2 :: ss) (t :: us))
    (ht : t.kind = "integer" ∨ t.kind = "eof") :
    ∃ d, (machine debug).Leads c d ∧
      (machine debug).Stands d (sentence ((x, y) :: ps) :: vs) (stateBehind xs :: ss) (t :: us) := by
  obtain ⟨p, ss', rfl, -, hg⟩ := ho.top
  have ha : table.action? 4 t.kind = some (.reduce 2) := by
    rcases ht with ht | ht <;> rw [ht] <;> rfl
  have hv : nest (.text x.text) (.text (pairsText ps)) (.text y.text) =
      .text (pairsText ((x, y) :: ps)) := by
    unfold nest
    rw [pairsText_cons]
    rfl
  unfold sentence
  rw [← hv]
  exact h.reduce ha rfl (by simp) rfl rfl hg

/-! ## Sentences are accepted -/

theorem Opened.open_all (ho : Opened xs vs ss) (hys : ∀ y ∈ ys, y.kind = "ident")
    (h : (machine debug).Stands c vs ss (ys ++ us)) :
    ∃ d vs' ss', (machine debug).Leads c d ∧ Opened (ys.reverse ++ xs) vs' ss' ∧
      (machine debug).Stands d vs' ss' us := by
  induction ys generalizing c xs vs ss with
  | nil => exact ⟨c, vs, ss, .refl c, ho, h⟩
  | cons y ys ih =>
    obtain ⟨hy, hys⟩ := List.forall_mem_cons.mp hys
    obtain ⟨d, hlead, hd⟩ := ho.open h hy
    obtain ⟨d', vs', ss', hlead', ho', hd'⟩ := ih (.name hy ho) hys hd
    refine ⟨d', vs', ss', hlead.trans hlead', ?_, hd'⟩
    simpa using ho'

theorem exists_closer (hys : ∀ y ∈ ys, y.kind = "integer") (hz : z.kind = "eof")
    (rest : List Token) :
    ∃ t us, ys ++ z :: rest = t :: us ∧ (t.kind = "integer" ∨ t.kind = "eof") := by
  cases ys with
  | nil => exact ⟨z, rest, rfl, Or.inr hz⟩
  | cons y ys => exact ⟨y, ys ++ z :: rest, rfl, Or.inl (hys y (by simp))⟩

theorem Opened.close_all (ho : Opened xs vs ss) (hys : ∀ y ∈ ys, y.kind = "integer")
    (hlen : ys.length = xs.length) (hz : z.kind = "eof")
    (h : (machine debug).Stands c (sentence ps :: vs) (stateBehind xs :: ss) (ys ++ z :: rest)) :
    ∃ d, (machine debug).Ends c
      (.ok (.accepted (.value (.text (pairsText ((xs.zip ys).reverse ++ ps)))))) d := by
  induction ho generalizing c ys ps with
  | start =>
    obtain rfl := List.eq_nil_of_length_eq_zero hlen
    have ha : table.action? 1 z.kind = some .accept := by
      rw [hz]
      rfl
    exact h.accept ha
  | @name xs vs ss x _ ho ih =>
    obtain ⟨y, ys, rfl⟩ := List.exists_cons_of_length_eq_add_one hlen
    obtain ⟨hy, hys⟩ := List.forall_mem_cons.mp hys
    have ha : table.action? 3 y.kind = some (.shift 4) := by
      rw [hy]
      rfl
    rw [List.cons_append] at h
    obtain ⟨d₁, lead₁, h₁⟩ := h.shift ha
    obtain ⟨t, us, hnext, ht⟩ := exists_closer hys hz rest
    rw [hnext] at h₁
    obtain ⟨d₂, lead₂, h₂⟩ := ho.close h₁ ht
    rw [← hnext] at h₂
    obtain ⟨d₃, hend⟩ := ih hys (by simpa using hlen) h₂
    refine ⟨d₃, lead₁.ends (lead₂.ends ?_)⟩
    simpa using hend

theorem Sentence.accepted (hs : Sentence xs ys us) (hz : z.kind = "eof")
    (h : (machine debug).Stands c [] [0] (us ++ z :: rest)) :
    ∃ d, (machine debug).Ends c
      (.ok (.accepted (.value (.text (pairsText (xs.zip ys.reverse)))))) d := by
  obtain ⟨rfl, hxs, hys, hlen⟩ := hs
  rw [List.append_assoc] at h
  obtain ⟨d₁, vs, ss, lead₁, ho, h₁⟩ := Opened.start.open_all hxs h
  rw [List.append_nil] at ho
  have hlen' : ys.length = xs.reverse.length := by simpa using hlen
  obtain ⟨t, us, hnext, ht⟩ : ∃ t us, ys ++ z :: rest = t :: us ∧ t.kind = follower xs.reverse := by
    cases ys with
    | nil =>
      have hnil := List.eq_nil_of_length_eq_zero hlen'.symm
      exact ⟨z, rest, rfl, by rw [hnil]; exact hz⟩
    | cons y ys =>
      obtain ⟨x, xs', hcons⟩ := List.exists_cons_of_length_eq_add_one hlen'.symm
      exact ⟨y, ys ++ z :: rest, rfl, by rw [hcons]; exact hys y (by simp)⟩
  rw [hnext] at h₁
  obtain ⟨d₂, lead₂, h₂⟩ := ho.innermost h₁ ht
  rw [← hnext] at h₂
  obtain ⟨d₃, hend⟩ := ho.close_all hys hlen' hz h₂
  have hpairs : (xs.reverse.zip ys).reverse ++ [] = xs.zip ys.reverse := by
    rw [List.append_nil, List.zip, List.reverse_zipWith hlen'.symm, List.reverse_reverse, ← List.zip]
  rw [hpairs] at hend
  exact ⟨d₃, lead₁.ends (lead₂.ends hend)⟩

/-! ## All else is rejected -/

theorem Opened.close_or_reject (ho : Opened xs vs ss) (heof : ∀ t ∈ us, t.kind ≠ "eof")
    (hz : z.kind = "eof")
    (h : (machine debug).Stands c (sentence ps :: vs) (stateBehind xs :: ss) (us ++ z :: rest)) :
    (machine debug).Rejects c ∨ us.length = xs.length ∧ ∀ t ∈ us, t.kind = "integer" := by
  induction ho generalizing c us ps with
  | start =>
    cases us with
    | nil => exact Or.inr ⟨rfl, by simp⟩
    | cons t us =>
      have hrow : table.row 1 = [("eof", .accept)] := by decide
      exact Or.inl (h.reject (Table.action?_eq_none hrow (by simpa using heof t (by simp))))
  | @name xs vs ss x _ ho ih =>
    obtain hrej | ⟨y, us, d, rfl, hy, lead₁, h₁⟩ :=
      h.expect (k := "integer") (q := 4) rfl (by simp [hz])
    · exact Or.inl hrej
    have hstep : ∀ {t us'}, us ++ z :: rest = t :: us' →
        (t.kind = "integer" ∨ t.kind = "eof") → (machine debug).Rejects c ∨
          (y :: us).length = (x :: xs).length ∧ ∀ t ∈ y :: us, t.kind = "integer" := by
      intro t us' hnext ht
      rw [hnext] at h₁
      obtain ⟨d', lead₂, h₂⟩ := ho.close h₁ ht
      rw [← hnext] at h₂
      rcases ih (fun t ht => heof t (by simp [ht])) h₂ with hrej | ⟨hlen, hall⟩
      · exact Or.inl ((lead₁.trans lead₂).rejects hrej)
      · exact Or.inr ⟨by simp [hlen], by simpa [hy] using hall⟩
    cases us with
    | nil => exact hstep rfl (Or.inr hz)
    | cons t us =>
      by_cases ht : t.kind = "integer"
      · exact hstep rfl (Or.inl ht)
      · have hrow : table.row 4 = [("integer", .reduce 2), ("eof", .reduce 2)] := by decide
        have hnone : table.action? 4 t.kind = none :=
          Table.action?_eq_none hrow (by simpa using ⟨ht, heof t (by simp)⟩)
        exact Or.inl (lead₁.rejects (h₁.reject hnone))

theorem Opened.reject (ho : Opened xs vs ss) (h : (machine debug).Stands c vs ss (t :: us))
    (ht : t.kind ≠ "ident") (ht' : t.kind ≠ follower xs) : (machine debug).Rejects c := by
  cases ho with
  | start =>
    have hrow : table.row 0 = [("ident", .shift 2), ("eof", .reduce 1)] := by decide
    exact h.reject (Table.action?_eq_none hrow (by simpa using ⟨ht, ht'⟩))
  | name =>
    have hrow : table.row 2 = [("ident", .shift 2), ("integer", .reduce 1)] := by decide
    exact h.reject (Table.action?_eq_none hrow (by simpa using ⟨ht, ht'⟩))

/-- The names that are open and the tokens to come are a sentence, or the machine rejects. -/
theorem Opened.judged (ho : Opened xs vs ss) (heof : ∀ t ∈ us, t.kind ≠ "eof")
    (hz : z.kind = "eof") (h : (machine debug).Stands c vs ss (us ++ z :: rest)) :
    (machine debug).Rejects c ∨ ∃ names numbers, Sentence names numbers (xs.reverse ++ us) := by
  induction us generalizing c xs vs ss with
  | nil =>
    cases xs with
    | nil => exact Or.inr ⟨[], [], rfl, by simp, by simp, rfl⟩
    | cons x xs => exact Or.inl (ho.reject h (by simp [hz]) (by simp [hz, follower]))
  | cons t us ih =>
    by_cases ht : t.kind = "ident"
    · obtain ⟨d, hlead, hd⟩ := ho.open h ht
      rcases ih (.name ht ho) (fun t ht => heof t (by simp [ht])) hd with hrej | hs
      · exact Or.inl (hlead.rejects hrej)
      · exact Or.inr (by simpa using hs)
    · by_cases ht' : t.kind = follower xs
      · obtain ⟨d, hlead, hd⟩ := ho.innermost h ht'
        rcases ho.close_or_reject heof hz hd with hrej | ⟨hlen, hall⟩
        · exact Or.inl (hlead.rejects hrej)
        · refine Or.inr ⟨xs.reverse, t :: us, rfl, ?_, hall, by simpa using hlen⟩
          intro x hx
          exact ho.names x (List.mem_reverse.mp hx)
      · exact Or.inl (ho.reject h ht ht')

/-- Just the sentences are accepted, with the text of their pairs, and all else is a syntax error
that is reported once. There is no other way for the machine to end. -/
theorem nesting_parsed_exactly (ts : List Token) (name : String) (debug : Bool) :
    ∃ t, Grammar.nesting.table = .ok t ∧
      let m : Machine Value := { table := t, rules := Grammar.nesting.rules, debug := debug }
      ∃ o d, m.Parses (m.start (.ofInputs [Input.tokens (ts.map .token) name])) (.ok o) d ∧
        ((∃ v, o = .accepted v) ↔ ∃ xs ys, Sentence xs ys (significant ts)) ∧
        (∀ xs ys, Sentence xs ys (significant ts) →
          o = .accepted (.value (.text (pairsText (xs.zip ys.reverse))))) ∧
        ((¬ ∃ xs ys, Sentence xs ys (significant ts)) →
          ∃ e, o = .rejected (some e) ∧ d.reports = [e]) := by
  refine ⟨table, table_nesting, ?_⟩
  obtain ⟨z, rest, hz, h⟩ := stands_significant (m := machine debug) rfl ts name
  have haccept : ∀ {o d xs ys}, Sentence xs ys (significant ts) →
      (machine debug).Ends ((machine debug).start (.ofInputs [Input.tokens (ts.map .token) name]))
        (.ok o) d → o = .accepted (.value (.text (pairsText (xs.zip ys.reverse)))) := by
    intro o d xs ys hs hend
    obtain ⟨d', hend'⟩ := hs.accepted hz h
    exact Except.ok.inj (hend.unique hend').1
  rcases Opened.start.judged (significant_ne_eof ts) hz h with ⟨d, e, hend, hrep⟩ | ⟨xs, ys, hs⟩
  · refine ⟨_, d, hend.parses validate_rules, ⟨by simp, ?_⟩, fun _ _ hs => haccept hs hend,
      fun _ => ⟨e, rfl, hrep⟩⟩
    rintro ⟨xs, ys, hs⟩
    exact ⟨_, haccept hs hend⟩
  · obtain ⟨d, hend⟩ := hs.accepted hz h
    exact ⟨_, d, hend.parses validate_rules, ⟨fun _ => ⟨xs, ys, hs⟩, fun _ => ⟨_, rfl⟩⟩,
      fun _ _ hs' => haccept hs' hend, fun hn => absurd ⟨xs, ys, hs⟩ hn⟩

end ShiftReduce.Nesting
