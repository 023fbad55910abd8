import Mathlib.Data.List.Induction
import Mathlib.Order.Bounds.Basic
import ShiftReduce.Proofs.SettingsLanguage

/-! # What statements mean

The settings behind some statements are told from the statements alone. A name has the value of the
last statement that sets it, unless it is unset behind that. Its place among the names is that of
the first statement that sets it and is not undone.
-/

namespace ShiftReduce.Settings

/-! ## The statements as a history -/

/-- A statement of the language: what is looked up is a name. -/
def Statement.Plain : Statement → Prop
  | .set _ (.ref name) => ∃ y, name = .text y
  | _ => True

def Statement.name : Statement → String
  | .set x _ => x
  | .unset x => x

variable {ss : List Statement} {s : Statement} {x y : String} {v w : Value} {i : Nat}

/-- Statement `i` sets a name that no statement behind it unsets. -/
def Lasts (ss : List Statement) (x : String) (i : Nat) : Prop :=
  (∃ v, ss[i]? = some (.set x v)) ∧ ∀ j, i < j → ss[j]? ≠ some (.unset x)

def Kept (ss : List Statement) (x : String) : Prop := ∃ i, Lasts ss x i

/-- Statement `i` sets a name to `v`, and those behind it are about other names. -/
structure SetLast (ss : List Statement) (x : String) (i : Nat) (v : Value) : Prop where
  set : ss[i]? = some (.set x v)
  last : ∀ j s, i < j → ss[j]? = some s → s.name ≠ x

mutual

/-- A name has a value behind some statements. -/
inductive Holds : List Statement → String → Value → Prop
  | last {ss : List Statement} {x : String} {i : Nat} {v w : Value} (h : SetLast ss x i v)
      (hv : Means (ss.take i) v w) : Holds ss x w

/-- What the value of a statement means behind some others. -/
inductive Means : List Statement → Value → Value → Prop
  | literal {ss : List Statement} {v : Value} (h : ∀ name, v ≠ .ref name) : Means ss v v
  | known {ss : List Statement} {y : String} {w : Value} (h : Holds ss y w) :
      Means ss (.ref (.text y)) w
  | unknown {ss : List Statement} {y : String} (h : ¬ Kept ss y) :
      Means ss (.ref (.text y)) (.text y)

end

/-! ## One statement more -/

theorem getElem?_snoc {t : Statement} :
    (ss ++ [s])[i]? = some t ↔ ss[i]? = some t ∨ i = ss.length ∧ s = t := by
  rcases Nat.lt_trichotomy i ss.length with hi | rfl | hi
  · rw [List.getElem?_append_left hi]
    simp [Nat.ne_of_lt hi]
  · simp
  · rw [List.getElem?_eq_none (by simp; omega), List.getElem?_eq_none (by omega)]
    simp [Nat.ne_of_gt hi]

theorem Lasts.lt (h : Lasts ss x i) : i < ss.length := by
  obtain ⟨⟨v, hv⟩, -⟩ := h
  exact (List.getElem?_eq_some_iff.mp hv).1

theorem lasts_snoc : Lasts (ss ++ [s]) x i ↔
    s ≠ .unset x ∧ (Lasts ss x i ∨ i = ss.length ∧ ∃ v, s = .set x v) := by
  constructor
  · rintro ⟨⟨v, hv⟩, hlater⟩
    have hss : ∀ j, i < j → ss[j]? ≠ some (.unset x) :=
      fun j hj h => hlater j hj (getElem?_snoc.mpr (Or.inl h))
    rcases getElem?_snoc.mp hv with hv | ⟨rfl, rfl⟩
    · refine ⟨?_, Or.inl ⟨⟨v, hv⟩, hss⟩⟩
      have hi : i < ss.length := (List.getElem?_eq_some_iff.mp hv).1
      rintro rfl
      exact hlater ss.length hi (getElem?_snoc.mpr (Or.inr ⟨rfl, rfl⟩))
    · exact ⟨by simp, Or.inr ⟨rfl, v, rfl⟩⟩
  · rintro ⟨hs, h⟩
    have hunset : ∀ j : Nat,
        (ss ++ [s])[j]? = some (.unset x) → ss[j]? = some (.unset x) := by
      intro j hj
      rcases getElem?_snoc.mp hj with hj | ⟨-, hj⟩
      · exact hj
      · exact absurd hj hs
    rcases h with ⟨⟨v, hv⟩, hlater⟩ | ⟨rfl, v, rfl⟩
    · exact ⟨⟨v, getElem?_snoc.mpr (Or.inl hv)⟩, fun j hj h => hlater j hj (hunset j h)⟩
    · refine ⟨⟨v, by simp⟩, fun j hj h => ?_⟩
      have := (List.getElem?_eq_some_iff.mp (hunset j h)).1
      omega

theorem kept_snoc : Kept (ss ++ [s]) x ↔ s ≠ .unset x ∧ (Kept ss x ∨ ∃ v, s = .set x v) := by
  unfold Kept
  simp only [lasts_snoc, exists_and_left, exists_or, exists_eq_left]

theorem not_kept_nil : ¬ Kept [] x := by
  rintro ⟨i, ⟨v, hv⟩, -⟩
  simp at hv

theorem setLast_snoc : SetLast (ss ++ [s]) x i v ↔
    SetLast ss x i v ∧ s.name ≠ x ∨ i = ss.length ∧ s = .set x v := by
  constructor
  · rintro ⟨hset, hlast⟩
    rcases getElem?_snoc.mp hset with hset | ⟨rfl, rfl⟩
    · have hi : i < ss.length := (List.getElem?_eq_some_iff.mp hset).1
      refine Or.inl ⟨⟨hset, fun j t hj h => ?_⟩, hlast ss.length s hi (by simp)⟩
      exact hlast j t hj (getElem?_snoc.mpr (Or.inl h))
    · exact Or.inr ⟨rfl, rfl⟩
  · rintro (⟨⟨hset, hlast⟩, hs⟩ | ⟨rfl, rfl⟩)
    · refine ⟨getElem?_snoc.mpr (Or.inl hset), fun j t hj h => ?_⟩
      rcases getElem?_snoc.mp h with h | ⟨-, rfl⟩
      · exact hlast j t hj h
      · exact hs
    · refine ⟨by simp, fun j t hj h => ?_⟩
      rw [List.getElem?_eq_none (by simp; omega)] at h
      cases h

theorem holds_snoc : Holds (ss ++ [s]) x w ↔
    Holds ss x w ∧ s.name ≠ x ∨ ∃ v, s = .set x v ∧ Means ss v w := by
  constructor
  · rintro ⟨h, hv⟩
    rcases setLast_snoc.mp h with ⟨h, hs⟩ | ⟨rfl, rfl⟩
    · have hi : _ < ss.length := (List.getElem?_eq_some_iff.mp h.set).1
      rw [List.take_append_of_le_length (by omega)] at hv
      exact Or.inl ⟨.last h hv, hs⟩
    · rw [List.take_left'] at hv
      · exact Or.inr ⟨_, rfl, hv⟩
      · rfl
  · rintro (⟨⟨h, hv⟩, hs⟩ | ⟨v, rfl, hv⟩)
    · have hi : _ < ss.length := (List.getElem?_eq_some_iff.mp h.set).1
      refine .last (setLast_snoc.mpr (Or.inl ⟨h, hs⟩)) ?_
      rwa [List.take_append_of_le_length (by omega)]
    · refine .last (setLast_snoc.mpr (Or.inr ⟨rfl, rfl⟩)) ?_
      rwa [List.take_left' rfl]

theorem not_holds_nil : ¬ Holds [] x w := by
  rintro ⟨h, -⟩
  simpa using h.set

@[simp]
theorem applyAll_snoc (es : Entries) (ss : List Statement) (s : Statement) :
    applyAll es (ss ++ [s]) = apply (applyAll es ss) s := by
  simp [applyAll]

/-! ## Values -/

theorem isSome_get?_iff (ss : List Statement) (x : String) :
    ((applyAll [] ss).get? (.text x)).isSome = true ↔ Kept ss x := by
  induction ss using List.reverseRecOn with
  | nil => simpa [applyAll, Entries.get?] using not_kept_nil
  | append_singleton ss s ih =>
    rw [applyAll_snoc, kept_snoc]
    cases s with
    | set y v =>
      rw [apply, Entries.get?_insert_text]
      by_cases hy : y = x
      · simp [hy]
      · simp [hy, ih]
    | unset y =>
      rw [apply, Entries.get?_erase_text]
      by_cases hy : y = x
      · simp [hy]
      · simp [hy, ih]

theorem get?_eq_none_iff (ss : List Statement) (x : String) :
    (applyAll [] ss).get? (.text x) = none ↔ ¬ Kept ss x := by
  rw [← isSome_get?_iff, Option.not_isSome_iff_eq_none]

theorem resolve_iff (hv : (Statement.set x v).Plain)
    (hss : ∀ y w, (applyAll [] ss).get? (.text y) = some w ↔ Holds ss y w) :
    resolve (applyAll [] ss) v = w ↔ Means ss v w := by
  cases v with
  | ref name =>
    obtain ⟨y, rfl⟩ := hv
    rw [resolve]
    cases hy : (applyAll [] ss).get? (.text y) with
    | some u =>
      have hkept : Kept ss y := (isSome_get?_iff ss y).mp (by simp [hy])
      constructor
      · rintro rfl
        exact .known ((hss y _).mp hy)
      · intro h
        cases h with
        | literal h => exact absurd rfl (h _)
        | known h => simpa [hy] using (hss y w).mpr h
        | unknown h => exact absurd hkept h
    | none =>
      constructor
      · rintro rfl
        exact .unknown ((get?_eq_none_iff ss y).mp hy)
      · intro h
        cases h with
        | literal h => exact absurd rfl (h _)
        | known h => simp [(hss y w).mpr h] at hy
        | unknown h => rfl
  | _ =>
    constructor
    · rintro rfl
      exact .literal (by simp)
    · intro h
      cases h
      rfl

theorem get?_iff (hss : ∀ s ∈ ss, s.Plain) (x : String) (w : Value) :
    (applyAll [] ss).get? (.text x) = some w ↔ Holds ss x w := by
  induction ss using List.reverseRecOn generalizing x w with
  | nil => simpa [applyAll, Entries.get?] using not_holds_nil
  | append_singleton ss s ih =>
    have hbefore := ih fun t ht => hss t (List.mem_append_left _ ht)
    have hs : s.Plain := hss s (by simp)
    rw [applyAll_snoc, holds_snoc]
    cases s with
    | set y v =>
      rw [apply, Entries.get?_insert_text]
      by_cases hy : y = x
      · simp [hy, Statement.name, resolve_iff hs hbefore]
      · simp [hy, Statement.name, hbefore]
    | unset y =>
      rw [apply, Entries.get?_erase_text]
      by_cases hy : y = x
      · simp [hy, Statement.name]
      · simp [hy, Statement.name, hbefore]

/-! ## Keys -/

theorem insert_keys (es : Entries) (x : String) (v : Value) :
    (es.insert (.text x) v).map Prod.fst =
      es.map Prod.fst ++ if (es.get? (.text x)).isSome then [] else [.text x] := by
  induction es with
  | nil => rfl
  | cons e es ih =>
    rw [Entries.insert, Entries.get?_cons]
    by_cases he : e.1.sameKey (.text x) = true
    · simp [he]
    · simp [he, ih]

theorem erase_keys (es : Entries) (x : String) :
    (es.erase (.text x)).map Prod.fst = (es.map Prod.fst).filter (!·.sameKey (.text x)) := by
  rw [Entries.erase, List.filter_map]
  rfl

theorem isLeast_snoc (h : IsLeast {i | Lasts ss x i} i) (hs : s ≠ .unset x) :
    IsLeast {i | Lasts (ss ++ [s]) x i} i := by
  refine ⟨lasts_snoc.mpr ⟨hs, Or.inl h.1⟩, fun j hj => ?_⟩
  rcases (lasts_snoc.mp hj).2 with hj | ⟨rfl, -⟩
  · exact h.2 hj
  · exact Nat.le_of_lt (Lasts.lt h.1)

/-- The names of some settings, each with the statement that brought it in. -/
structure Listed (ss : List Statement) (ps : List (String × Nat)) : Prop where
  keys : (applyAll [] ss).map Prod.fst = ps.map fun p => .text p.1
  ordered : ps.Pairwise fun p q => p.2 < q.2
  least : ∀ p ∈ ps, IsLeast {i | Lasts ss p.1 i} p.2

theorem Listed.set {ps : List (String × Nat)} (h : Listed ss ps) (x : String) (v : Value) :
    ∃ ps, Listed (ss ++ [.set x v]) ps := by
  have hleast : ∀ p ∈ ps, IsLeast {i | Lasts (ss ++ [.set x v]) p.1 i} p.2 :=
    fun p hp => isLeast_snoc (h.least p hp) (by simp)
  -- A name that is there stays in its place, and a new one comes last.
  by_cases hx : Kept ss x
  · have hsome := (isSome_get?_iff ss x).mpr hx
    exact ⟨ps, by rw [applyAll_snoc, apply, insert_keys, hsome, h.keys]; simp, h.ordered, hleast⟩
  · have hnone := (get?_eq_none_iff ss x).mpr hx
    refine ⟨ps ++ [(x, ss.length)], ?_, ?_, ?_⟩
    · rw [applyAll_snoc, apply, insert_keys, hnone, h.keys]
      simp
    · rw [List.pairwise_append]
      refine ⟨h.ordered, List.pairwise_singleton _ _, fun p hp q hq => ?_⟩
      rw [List.mem_singleton.mp hq]
      exact Lasts.lt (h.least p hp).1
    · intro p hp
      rcases List.mem_append.mp hp with hp | hp
      · exact hleast p hp
      · rw [List.mem_singleton.mp hp]
        refine ⟨lasts_snoc.mpr ⟨by simp, Or.inr ⟨rfl, v, rfl⟩⟩, fun j hj => ?_⟩
        rcases (lasts_snoc.mp hj).2 with hj | ⟨rfl, -⟩
        · exact absurd ⟨j, hj⟩ hx
        · exact Nat.le_refl _

theorem Listed.unset {ps : List (String × Nat)} (h : Listed ss ps) (x : String) :
    Listed (ss ++ [.unset x]) (ps.filter fun p => p.1 != x) where
  keys := by
    have hsame : ((!·.sameKey (.text x)) ∘ fun p : String × Nat => Value.text p.1) =
        fun p => p.1 != x := by
      funext p
      simp [bne]
    rw [applyAll_snoc, apply, erase_keys, h.keys, List.filter_map, hsame]
  ordered := h.ordered.filter _
  least := by
    intro p hp
    obtain ⟨hp, hx⟩ := List.mem_filter.mp hp
    refine isLeast_snoc (h.least p hp) ?_
    rintro ⟨⟩
    simp at hx

theorem exists_listed (ss : List Statement) : ∃ ps, Listed ss ps := by
  induction ss using List.reverseRecOn with
  | nil => exact ⟨[], rfl, .nil, by simp⟩
  | append_singleton ss s ih =>
    obtain ⟨ps, h⟩ := ih
    cases s with
    | set x v => exact h.set x v
    | unset x => exact ⟨_, h.unset x⟩

/-! ## No name is left to be looked up -/

theorem mem_insert {es : Entries} {key : Value} {e : Value × Value} (h : e ∈ es.insert key v) :
    e ∈ es ∨ e.2 = v := by
  induction es with
  | nil => simp_all [Entries.insert]
  | cons d es ih =>
    rw [Entries.insert] at h
    split at h
    · rcases List.mem_cons.mp h with rfl | h
      · exact Or.inr rfl
      · exact Or.inl (List.mem_cons_of_mem _ h)
    · rcases List.mem_cons.mp h with rfl | h
      · exact Or.inl (by simp)
      · exact (ih h).imp_left (List.mem_cons_of_mem _)

theorem mem_of_get? {es : Entries} {key : Value} (h : es.get? key = some v) :
    ∃ e ∈ es, e.2 = v := by
  obtain ⟨e, he, rfl⟩ := Option.map_eq_some_iff.mp h
  exact ⟨e, List.mem_of_find?_eq_some he, rfl⟩

theorem resolve_ne_ref {es : Entries} (hes : ∀ e ∈ es, ∀ name, e.2 ≠ .ref name)
    (hv : (Statement.set x v).Plain) (name : Value) : resolve es v ≠ .ref name := by
  cases v with
  | ref ref =>
    obtain ⟨y, rfl⟩ := hv
    rw [resolve]
    cases hy : es.get? (.text y) with
    | none => simp
    | some w =>
      obtain ⟨e, he, rfl⟩ := mem_of_get? hy
      exact hes e he name
  | _ => simp [resolve]

theorem values_resolved (hss : ∀ s ∈ ss, s.Plain) :
    ∀ e ∈ applyAll [] ss, ∀ name, e.2 ≠ .ref name := by
  induction ss using List.reverseRecOn with
  | nil => simp [applyAll]
  | append_singleton ss s ih =>
    have hbefore := ih fun t ht => hss t (List.mem_append_left _ ht)
    have hs : s.Plain := hss s (by simp)
    rw [applyAll_snoc]
    cases s with
    | set x v =>
      intro e he
      rcases mem_insert he with he | he
      · exact hbefore e he
      · rw [he]
        exact resolve_ne_ref hbefore hs
    | unset x => exact fun e he => hbefore e (List.mem_filter.mp he).1

theorem unset_absent (hx : ¬ Kept ss x) :
    apply (applyAll [] ss) (.unset x) = applyAll [] ss := by
  have hnone := (get?_eq_none_iff ss x).mpr hx
  rw [Entries.get?, Option.map_eq_none_iff, List.find?_eq_none] at hnone
  rw [apply, Entries.erase, List.filter_eq_self]
  intro e he
  simpa using hnone e he

/-! ## The rule and the parse -/

theorem append_apply (es : Entries) (hs : s.Plain) :
    append [.dict es, s.toValue] = .ok (.dict (apply es s)) := by
  cases s with
  | set x v =>
    refine append_set es x ?_
    cases v with
    | ref name =>
      obtain ⟨y, rfl⟩ := hs
      simp [Settable, Value.unfit?]
    | _ => trivial
  | unset x => exact append_unset es x

theorem foldlM_append (hss : ∀ s ∈ ss, s.Plain) (es : Entries) :
    ss.foldlM (fun v s => append [v, s.toValue]) (.dict es) = .ok (.dict (applyAll es ss)) := by
  induction ss generalizing es with
  | nil => rfl
  | cons s ss ih =>
    rw [List.foldlM_cons, append_apply es (hss s (by simp))]
    exact ih (fun t ht => hss t (List.mem_cons_of_mem _ ht)) _

/-- The value of the settings language is what its statements mean. -/
theorem settings_have_their_meaning (ss : List Statement) (hss : ∀ s ∈ ss, s.Plain) :
    let d := applyAll [] ss
    ss.foldlM (fun v s => append [v, s.toValue]) (.dict []) = .ok (.dict d) ∧
      (∀ ts name debug, Program ss (significant ts) →
        ∃ t, Grammar.settings.table = .ok t ∧
          let m : Machine Value := { table := t, rules := Grammar.settings.rules, debug := debug }
          ∃ c, m.Parses (m.start (.ofInputs [Input.tokens (ts.map .token) name]))
            (.ok (.accepted (.value (.dict d)))) c) ∧
      (∀ x, (d.get? (.text x)).isSome = true ↔ Kept ss x) ∧
      (∀ x w, d.get? (.text x) = some w ↔ Holds ss x w) ∧
      (∃ names : List String, d.map Prod.fst = names.map .text ∧
        (∀ x ∈ names, ∃ i, IsLeast {i | Lasts ss x i} i) ∧
        names.Pairwise fun x y => ∀ i j,
          IsLeast {i | Lasts ss x i} i → IsLeast {j | Lasts ss y j} j → i < j) ∧
      (∀ e ∈ d, ∀ name, e.2 ≠ .ref name) ∧
      ∀ x, ¬ Kept ss x → apply d (.unset x) = d := by
  refine ⟨foldlM_append hss [], ?_, isSome_get?_iff ss, get?_iff hss, ?_, values_resolved hss,
    fun x => unset_absent⟩
  · intro ts name debug hp
    refine ⟨table, table_settings, ?_⟩
    obtain ⟨z, rest, hz, h⟩ := stands_start ts name debug
    obtain ⟨c, hend⟩ := hp.accepted hz .start h
    exact ⟨c, hend.parses validate_rules⟩
  · obtain ⟨ps, hps⟩ := exists_listed ss
    refine ⟨ps.map Prod.fst, by rw [hps.keys]; simp, ?_, ?_⟩
    · intro x hx
      obtain ⟨p, hp, rfl⟩ := List.mem_map.mp hx
      exact ⟨p.2, hps.least p hp⟩
    · rw [List.pairwise_map]
      refine hps.ordered.imp_of_mem ?_
      intro p q hp hq hlt i j hi hj
      rw [hi.unique (hps.least p hp), hj.unique (hps.least q hq)]
      exact hlt

/-- Statements in which a name refers to another and to itself, and moves behind it. -/
def reassigned : List Statement :=
  [.set "a" (.int 1), .set "b" (.ref (.text "a")), .unset "a", .set "a" (.ref (.text "a")),
    .set "b" (.ref (.text "b"))]

theorem settings_have_their_meaning_reassigned :
    (∀ s ∈ reassigned, s.Plain) ∧
      applyAll [] reassigned = [(.text "b", .int 1), (.text "a", .text "a")] ∧
      Holds reassigned "b" (.int 1) ∧ Holds reassigned "a" (.text "a") := by
  have hplain : ∀ s ∈ reassigned, s.Plain := by simp [reassigned, Statement.Plain]
  have hd : applyAll [] reassigned = [(.text "b", .int 1), (.text "a", .text "a")] := rfl
  obtain ⟨-, -, -, hvalue, -⟩ := settings_have_their_meaning reassigned hplain
  rw [hd] at hvalue
  exact ⟨hplain, hd, (hvalue "b" _).mp rfl, (hvalue "a" _).mp rfl⟩

end ShiftReduce.Settings
