import ShiftReduce.Proofs.Lexemes

/-! # The scanner takes the longest lexeme

The longest word of a language at the front of a text is found piece by piece along the operations
that the language is built with. Each span is the longest lexeme at the front of what is left of the
text, in whatever order the classes are tried.
-/

namespace ShiftReduce

open scoped Computability

variable {p r : Char → Bool} {c q : Char} {cs t v w : List Char} {k : Lexeme}

/-! ## Longest words -/

/-- `w` is the longest word of a language at the front of a text. -/
structure Longest (l : Language Char) (cs w : List Char) : Prop where
  front : w <+: cs
  mem : w ∈ l
  longest : ∀ v, v <+: cs → v ∈ l → v.length ≤ w.length

theorem longest_nil : Longest 1 cs [] where
  front := List.nil_prefix
  mem := Language.nil_mem_one
  longest := by
    rintro v - hv
    rw [(Language.mem_one v).mp hv]

theorem Longest.cons {l : Language Char} (hc : p c = true) (h : Longest l cs w) :
    Longest (oneOf p * l) (c :: cs) (c :: w) where
  front := List.cons_prefix_cons.mpr ⟨rfl, h.front⟩
  mem := Language.append_mem_mul (mem_oneOf.mpr ⟨c, hc, rfl⟩) h.mem
  longest := by
    intro v hv hmem
    obtain ⟨a, ⟨d, -, rfl⟩, u, hu, rfl⟩ := Language.mem_mul.mp hmem
    have hfront : u <+: cs := (List.cons_prefix_cons.mp hv).2
    exact Nat.succ_le_succ (h.longest u hfront hu)

theorem longest_one (hc : p c = true) : Longest (oneOf p) (c :: cs) [c] := by
  have h := Longest.cons hc (longest_nil : Longest 1 cs [])
  rwa [mul_one] at h

/-- A run ends at the first character that is not of it. What follows the run in a word starts with
such a character, so it starts where the run ends. -/
theorem longest_run_mul {l : Language Char} (hl : ∀ d t, d :: t ∈ l → p d = false)
    (h : Longest l (cs.dropWhile p) w) :
    Longest ((oneOf p)∗ * l) cs (cs.takeWhile p ++ w) where
  front := by
    have hcs : cs.takeWhile p ++ w <+: cs.takeWhile p ++ cs.dropWhile p :=
      (List.prefix_append_right_inj _).mpr h.front
    rwa [List.takeWhile_append_dropWhile] at hcs
  mem := by
    refine Language.append_mem_mul (mem_oneOf_star.mpr fun d hd => ?_) h.mem
    exact List.mem_takeWhile_imp hd
  longest := by
    intro v hv hmem
    obtain ⟨a, ha, u, hu, rfl⟩ := Language.mem_mul.mp hmem
    obtain ⟨z, rfl⟩ := hv
    rw [mem_oneOf_star] at ha
    rw [List.append_assoc, List.takeWhile_append_of_pos ha, List.length_append]
    rw [List.append_assoc, List.dropWhile_append_of_pos ha] at h
    simp only [List.length_append]
    cases u with
    | nil => simp only [List.length_nil]; omega
    | cons d u =>
      have hd := hl d u hu
      rw [List.cons_append, List.dropWhile_cons_of_neg (by simp [hd])] at h
      have := h.longest (d :: u) ⟨z, rfl⟩ hu
      omega

theorem longest_run : Longest (oneOf p)∗ cs (cs.takeWhile p) := by
  have h : Longest ((oneOf p)∗ * 1) cs (cs.takeWhile p ++ []) := by
    refine longest_run_mul ?_ longest_nil
    intro d t hd
    cases (Language.mem_one _).mp hd
  rwa [mul_one, List.append_nil] at h

/-! ## Numbers -/

/-- The exponent at the front of a text, if there is one. -/
def exponentAt (cs : List Char) : List Char :=
  match Span.exponentMark? cs with
  | some (mark, rest) => mark ++ rest.takeWhile Text.isScanned
  | none => []

theorem exponentMark?_of_isExponent {mark ds : List Char} (h : IsExponent mark ds)
    (hfront : mark ++ ds <+: cs) :
    ∃ rest, Span.exponentMark? cs = some (mark, rest) ∧ ds <+: rest := by
  obtain ⟨z, rfl⟩ := hfront
  obtain ⟨⟨e, s, rfl, he, hs⟩, hds⟩ := h
  obtain ⟨hne, hall⟩ := mem_digits.mp hds
  obtain ⟨d, ds, rfl⟩ := List.exists_cons_of_ne_nil hne
  have hd : Text.isScanned d = true := hall d (by simp)
  have hsign : ¬ (d = '+' ∨ d = '-') := by
    rintro (rfl | rfl) <;> revert hd <;> decide
  rcases hs with rfl | rfl | rfl
  · refine ⟨d :: (ds ++ z), ?_, ⟨z, rfl⟩⟩
    cases hrest : ds ++ z with
    | nil => simp [Span.exponentMark?, he, hd, hrest]
    | cons x xs => simp [Span.exponentMark?, he, hd, hsign, hrest]
  · exact ⟨d :: (ds ++ z), by simp [Span.exponentMark?, he, hd], ⟨z, rfl⟩⟩
  · exact ⟨d :: (ds ++ z), by simp [Span.exponentMark?, he, hd], ⟨z, rfl⟩⟩

theorem isExponent_of_exponentMark? {mark rest : List Char}
    (h : Span.exponentMark? cs = some (mark, rest)) :
    IsExponent mark (rest.takeWhile Text.isScanned) := by
  have hdigits : ∀ {d ds}, Text.isScanned d = true →
      (d :: ds).takeWhile Text.isScanned ∈ digits := by
    intro d ds hd
    rw [mem_digits, List.takeWhile_cons_of_pos hd]
    refine ⟨by simp, ?_⟩
    rintro x (_ | ⟨_, hx⟩)
    · exact hd
    · exact List.mem_takeWhile_imp hx
  unfold Span.exponentMark? at h
  split at h
  · next e cs =>
    split at h
    · next he =>
      split at h
      · next s d rs =>
        split at h
        · next hs =>
          cases h
          refine ⟨⟨e, [s], rfl, he, ?_⟩, hdigits hs.2⟩
          rcases hs.1 with rfl | rfl <;> simp
        · split at h
          · next hs =>
            cases h
            exact ⟨⟨e, [], rfl, he, Or.inl rfl⟩, hdigits hs⟩
          · cases h
      · split at h
        · next hd =>
          cases h
          exact ⟨⟨e, [], rfl, he, Or.inl rfl⟩, hdigits hd⟩
        · cases h
      · cases h
    · cases h
  · cases h

theorem longest_exponentAt (cs : List Char) : Longest (1 + exponent) cs (exponentAt cs) := by
  unfold exponentAt
  cases hmark : Span.exponentMark? cs with
  | none =>
    refine ⟨⟨cs, rfl⟩, mem_optional.mpr (Or.inl rfl), ?_⟩
    intro v hv hmem
    rcases mem_optional.mp hmem with rfl | hex
    · rfl
    · obtain ⟨mark, ds, rfl, his⟩ := mem_exponent.mp hex
      obtain ⟨rest, hsome, -⟩ := exponentMark?_of_isExponent his hv
      rw [hmark] at hsome
      cases hsome
  | some found =>
    obtain ⟨mark, rest⟩ := found
    refine ⟨?_, ?_, ?_⟩
    · rw [← Span.exponentMark?_eq hmark]
      have hdigits : rest.takeWhile Text.isScanned <+: rest := List.takeWhile_prefix _
      exact (List.prefix_append_right_inj mark).mpr hdigits
    · refine mem_optional.mpr (Or.inr (mem_exponent.mpr ⟨_, _, rfl, ?_⟩))
      exact isExponent_of_exponentMark? hmark
    · intro v hv hmem
      rcases mem_optional.mp hmem with rfl | hex
      · exact Nat.zero_le _
      · obtain ⟨mark', ds, rfl, his⟩ := mem_exponent.mp hex
        obtain ⟨rest', hsome, hds⟩ := exponentMark?_of_isExponent his hv
        rw [hmark] at hsome
        cases hsome
        have hle := longest_run.longest ds hds (mem_oneOf_star.mpr (mem_digits.mp his.digits).2)
        simp only [List.length_append]
        omega

/-- What makes a number real, at the front of the text after its first digits. -/
def fractionAt : List Char → List Char
  | '.' :: cs => '.' :: (cs.takeWhile Text.isScanned ++ exponentAt (cs.dropWhile Text.isScanned))
  | cs => exponentAt cs

theorem exponent_starts (h : c :: cs ∈ exponent) : c = 'e' ∨ c = 'E' := by
  obtain ⟨mark, ds, hcs, ⟨e, s, rfl, he, -⟩, -⟩ := mem_exponent.mp h
  cases hcs
  exact he

theorem longest_fractionAt (cs : List Char) : Longest (1 + fraction) cs (fractionAt cs) := by
  have hdigits : ∀ d t, d :: t ∈ 1 + exponent → Text.isScanned d = false := by
    intro d t hd
    rcases mem_optional.mp hd with hd | hd
    · cases hd
    · rcases exponent_starts hd with rfl | rfl <;> decide
  unfold fractionAt
  split
  · next cs =>
    have h := Longest.cons (p := (· == '.')) (c := '.') rfl
      (longest_run_mul hdigits (longest_exponentAt (cs.dropWhile Text.isScanned)))
    refine ⟨h.front, Or.inr (Or.inl h.mem), ?_⟩
    -- An exponent cannot start with the point, so only the words with a point are in question.
    rintro v hv (rfl | hmem | hex)
    · exact Nat.zero_le _
    · exact h.longest v hv hmem
    · obtain ⟨mark, ds, rfl, ⟨e, s, rfl, he, -⟩, -⟩ := mem_exponent.mp hex
      obtain ⟨rfl, -⟩ := List.cons_prefix_cons.mp hv
      exact absurd he (by decide)
  · next hpoint =>
    have h := longest_exponentAt cs
    refine ⟨h.front, ?_, ?_⟩
    · rcases mem_optional.mp h.mem with hnil | hex
      · exact mem_optional.mpr (Or.inl hnil)
      · exact mem_optional.mpr (Or.inr (mem_fraction.mpr (Or.inr hex)))
    · intro v hv hmem
      rcases mem_optional.mp hmem with rfl | hfrac
      · exact Nat.zero_le _
      · rcases mem_fraction.mp hfrac with ⟨ds, ex, rfl, -, -⟩ | hex
        · obtain ⟨z, rfl⟩ := hv
          exact absurd rfl (hpoint _)
        · exact h.longest v hv (mem_optional.mpr (Or.inr hex))

theorem number_eq (ds rest : List Char) :
    (Span.number ds rest).text = ds ++ fractionAt rest ∧
      (Span.number ds rest).kind = if fractionAt rest = [] then .integer else .real := by
  unfold Span.number
  split
  · next cs =>
    have hne : fractionAt ('.' :: cs) ≠ [] := by simp [fractionAt]
    rw [if_neg hne, fractionAt]
    dsimp only
    cases hmark : Span.exponentMark? (cs.dropWhile Text.isScanned) with
    | none => simp [exponentAt, hmark]
    | some found => simp [exponentAt, hmark, Span.run]
  · next hpoint =>
    have hother : fractionAt rest = exponentAt rest := by
      unfold fractionAt
      split
      · exact absurd rfl (hpoint _)
      · rfl
    rw [hother]
    cases hmark : Span.exponentMark? rest with
    | none => simp [exponentAt, hmark]
    | some found =>
      obtain ⟨mark, r⟩ := found
      obtain ⟨⟨e, s, rfl, -⟩, -⟩ := isExponent_of_exponentMark? hmark
      simp [exponentAt, hmark, Span.run]

/-! ## Strings -/

theorem closeQuote?_plain (hc : c ≠ '\\') : Span.closeQuote? q (c :: cs) =
    if c = q then some ([], cs) else if c = '\n' then none
    else (Span.closeQuote? q cs).map fun (b, r) => (c :: b, r) := by
  rw [Span.closeQuote?]
  · simp [hc]
  · rintro d ds rfl
    exact absurd rfl hc

theorem closeQuote?_of_items {body : List Char} (hq : Quoted.isQuote q = true)
    (hbody : body ∈ (stringItem q)∗) (z : List Char) :
    Span.closeQuote? q (body ++ q :: z) = some (body, z) := by
  have hslash : q ≠ '\\' := by
    rintro rfl
    exact absurd hq (by decide)
  obtain ⟨items, rfl, hitems⟩ := Language.mem_kstar.mp hbody
  clear hbody
  induction items with
  | nil => simp [closeQuote?_plain hslash]
  | cons item items ih =>
    have hrest := ih fun y hy => hitems y (List.mem_cons_of_mem _ hy)
    rcases mem_stringItem.mp (hitems item (by simp)) with ⟨d, hd, rfl⟩ | ⟨d, ⟨hdq, hds, hdn⟩, rfl⟩
    · simp [Span.closeQuote?, hd, hrest]
    · simp [closeQuote?_plain hds, hdq, hdn, hrest]

theorem items_of_closeQuote? {body rest : List Char}
    (h : Span.closeQuote? q cs = some (body, rest)) : body ∈ (stringItem q)∗ := by
  have hcons : ∀ {item b},
      item ∈ stringItem q → b ∈ (stringItem q)∗ → item ++ b ∈ (stringItem q)∗ := by
    intro item b hi hb
    rw [← Language.one_add_self_mul_kstar_eq_kstar]
    exact Or.inr (Language.append_mem_mul hi hb)
  fun_induction Span.closeQuote? q cs generalizing body rest with
  | case1 => cases h
  | case2 => cases h
  | case3 c cs hc ih =>
    obtain ⟨⟨b, r⟩, hb, he⟩ := Option.map_eq_some_iff.mp h
    cases he
    exact hcons (mem_stringItem.mpr (Or.inl ⟨c, hc, rfl⟩)) (ih hb)
  | case4 =>
    cases h
    exact Language.nil_mem_kstar _
  | case5 => cases h
  | case6 c cs _ hq hc ih =>
    obtain ⟨⟨b, r⟩, hb, he⟩ := Option.map_eq_some_iff.mp h
    cases he
    rw [not_or] at hc
    exact hcons (mem_stringItem.mpr (Or.inr ⟨c, ⟨hq, hc.2, hc.1⟩, rfl⟩)) (ih hb)

theorem closeQuote?_of_mem (hq : Quoted.isQuote q = true) (hv : v <+: q :: cs)
    (hmem : v ∈ quotedBy q) :
    ∃ body rest, v = q :: body ++ [q] ∧ Span.closeQuote? q cs = some (body, rest) := by
  obtain ⟨body, rfl, hbody⟩ := mem_quotedBy.mp hmem
  obtain ⟨z, hz⟩ := hv
  rw [List.append_assoc, List.cons_append] at hz
  cases hz
  exact ⟨body, z, rfl, closeQuote?_of_items hq hbody z⟩

theorem longest_string {body rest : List Char} (hq : Quoted.isQuote q = true)
    (h : Span.closeQuote? q cs = some (body, rest)) :
    Longest (quotedBy q) (q :: cs) (q :: body ++ [q]) := by
  refine ⟨⟨rest, ?_⟩, mem_quotedBy.mpr ⟨body, rfl, items_of_closeQuote? h⟩, ?_⟩
  · simp [← Span.closeQuote?_eq h]
  · intro v hv hmem
    obtain ⟨body', rest', rfl, h'⟩ := closeQuote?_of_mem hq hv hmem
    rw [h] at h'
    cases h'
    exact Nat.le_refl _

/-! ## The longest lexeme -/

/-- The words of all classes. -/
def lexemes : Language Char := {w | ∃ k : Lexeme, w ∈ k.language}

theorem ofStart?_of_front (hv : v <+: c :: cs) (hmem : v ∈ k.language) :
    Lexeme.ofStart? c = some k.leading := by
  obtain ⟨d, ds, rfl, -⟩ := Lexeme.starts_of_mem hmem
  obtain ⟨rfl, -⟩ := List.cons_prefix_cons.mp hv
  exact Lexeme.ofStart?_of_mem hmem

theorem Longest.amongAll {l : Language Char} (h : Longest l (c :: cs) w) (hw : w ∈ k.language)
    (hl : ∀ j : Lexeme, j.leading = k.leading → ∀ v ∈ j.language, v ∈ l) :
    Longest lexemes (c :: cs) w where
  front := h.front
  mem := ⟨k, hw⟩
  longest := by
    rintro v hv ⟨j, hj⟩
    have hsame : some j.leading = some k.leading :=
      (ofStart?_of_front hv hj).symm.trans (ofStart?_of_front h.front hw)
    exact h.longest v hv (hl j (Option.some.inj hsame) v hj)

theorem Lexeme.eq_of_leading {j : Lexeme} (h : j.leading = k.leading) (hk : k.leading ≠ .integer) :
    j = k := by
  cases j <;> cases k <;> first | rfl | exact absurd rfl hk | cases h

theorem Longest.ofClass (h : Longest k.language (c :: cs) w) (hk : k.leading ≠ .integer) :
    Longest lexemes (c :: cs) w := by
  refine h.amongAll h.mem ?_
  intro j hj v hv
  rwa [Lexeme.eq_of_leading hj hk] at hv

/-- What is taken where there is no lexeme: the rest of the line if a quote opens there, and else
one character. -/
def unclassified (cs : List Char) : List Char :=
  if cs.head?.any Quoted.isQuote then cs.takeWhile (· != '\n') else cs.take 1

/-- What a span takes from the front of a text, and the token that it gives. -/
inductive Munched (cs : List Char) (s : Span) : Prop where
  | lexeme (k : Lexeme) (longest : Longest lexemes cs s.text)
      (only : ∀ l : Lexeme, s.text ∈ l.language ↔ l = k)
      (kind : s.token?.map Token.kind = k.terminal? s.text)
      (text : ∀ t ∈ s.token?, k.isString = false → t.text = String.ofList s.text)
  | invalid (none : ∀ w, w <+: cs → w ∉ lexemes) (taken : s.text = unclassified cs)
      (token : s.token? = some ⟨"invalid", String.ofList s.text⟩)

theorem token?_text {s : Span} {t : Token} (ht : s.token? = some t) :
    (∃ q, s.kind = .string q) ∨ t.text = String.ofList s.text := by
  unfold Span.token? at ht
  split at ht <;> first | exact Or.inl ⟨_, by assumption⟩ | cases ht <;> exact Or.inr rfl

theorem Munched.of_mem {s : Span} (h : Longest lexemes cs s.text) (hk : s.text ∈ k.language)
    (hkind : s.token?.map Token.kind = k.terminal? s.text)
    (hstring : ∀ q, s.kind = .string q → k.isString = true) : Munched cs s := by
  refine .lexeme k h ?_ hkind ?_
  · intro l
    constructor
    · intro hl
      exact Lexeme.eq_of_mem hl hk
    · rintro rfl
      exact hk
  · intro t ht hk
    rcases token?_text ht with ⟨q, hq⟩ | htext
    · rw [hstring q hq] at hk
      cases hk
    · exact htext

theorem Munched.of_class {s : Span} (h : Longest k.language (c :: cs) s.text)
    (hk : k.leading ≠ .integer) (hkind : s.token?.map Token.kind = k.terminal? s.text)
    (hstring : ∀ q, s.kind = .string q → k.isString = true) : Munched (c :: cs) s :=
  .of_mem (h.ofClass hk) h.mem hkind hstring

theorem name_terminal (w : List Char) :
    some ((keywords.lookup (String.ofList w)).getD "ident") = Lexeme.name.terminal? w := by
  obtain ⟨s, rfl⟩ : ∃ s : String, w = s.toList := ⟨String.ofList w, String.toList_ofList.symm⟩
  unfold Lexeme.terminal? keywords
  simp only [String.ofList_toList, String.toList_inj, List.lookup_cons, List.lookup_nil]
  by_cases hset : s = "set"
  · simp [hset]
  · by_cases hunset : s = "unset"
    · simp [hunset]
    · simp [hset, hunset, beq_eq_false_iff_ne.mpr hset, beq_eq_false_iff_ne.mpr hunset]

theorem longest_digits_fraction (hc : Text.isScanned c = true) (cs : List Char) :
    Longest (digits * (1 + fraction)) (c :: cs)
      (c :: cs.takeWhile Text.isScanned ++ fractionAt (cs.dropWhile Text.isScanned)) := by
  have hnext : ∀ d t, d :: t ∈ 1 + fraction → Text.isScanned d = false := by
    intro d t hd
    rcases mem_optional.mp hd with hd | hd
    · cases hd
    · obtain ⟨e, es, he, hscan⟩ := Lexeme.not_scanned_of_fraction hd
      cases he
      exact hscan
  have hrest := longest_fractionAt (cs.dropWhile Text.isScanned)
  have h := Longest.cons hc (longest_run_mul hnext hrest)
  rwa [← mul_assoc] at h

theorem mem_of_number (hk : k.leading = .integer) (hv : v ∈ k.language) :
    v ∈ digits * (1 + fraction) := by
  rw [mul_add, mul_one]
  cases k with
  | real =>
    rw [language_real] at hv
    exact Or.inr hv
  | integer => exact Or.inl hv
  | _ => cases hk

theorem munched_number (hc : Text.isScanned c = true) :
    Munched (c :: cs)
      (Span.number (c :: cs.takeWhile Text.isScanned) (cs.dropWhile Text.isScanned)) := by
  have hlongest := longest_digits_fraction hc cs
  have hdigits : c :: cs.takeWhile Text.isScanned ∈ digits := (Longest.cons hc longest_run).mem
  have hfraction := (longest_fractionAt (cs.dropWhile Text.isScanned)).mem
  generalize c :: cs.takeWhile Text.isScanned = ds at *
  generalize cs.dropWhile Text.isScanned = rest at *
  obtain ⟨htext, hkind⟩ := number_eq ds rest
  rw [← htext] at hlongest
  rcases mem_optional.mp hfraction with hnil | hfrac
  · have hmem : (Span.number ds rest).text ∈ Lexeme.integer.language := by
      rw [htext, hnil, List.append_nil]
      exact hdigits
    rw [if_pos hnil] at hkind
    refine .of_mem (hlongest.amongAll hmem fun j hj v => mem_of_number hj) hmem ?_ ?_
    · simp [Span.token?, Lexeme.terminal?, hkind]
    · simp [hkind]
  · have hmem : (Span.number ds rest).text ∈ Lexeme.real.language := by
      rw [htext, language_real]
      exact Language.append_mem_mul hdigits hfrac
    have hne : fractionAt rest ≠ [] := by
      obtain ⟨d, t, ht, -⟩ := Lexeme.not_scanned_of_fraction hfrac
      simp [ht]
    rw [if_neg hne] at hkind
    refine .of_mem (hlongest.amongAll hmem fun j hj v => mem_of_number hj) hmem ?_ ?_
    · simp [Span.token?, Lexeme.terminal?, hkind]
    · simp [hkind]

theorem munched_unclosed (hq : Quoted.isQuote q = true) (hclose : Span.closeQuote? q cs = none) :
    Munched (q :: cs) (Span.run .invalid Span.notNewline [q] cs) := by
  have hcases := Quoted.quote_cases hq
  refine .invalid ?_ ?_ rfl
  · rintro w hw ⟨k, hk⟩
    have hstart := ofStart?_of_front hw hk
    have hquoted : w ∈ quotedBy q := by
      rcases hcases with rfl | rfl
      · have hdouble : k = .doubleQuoted :=
          Lexeme.eq_of_leading (Option.some.inj hstart).symm (by decide)
        rwa [hdouble] at hk
      · have hsingle : k = .singleQuoted :=
          Lexeme.eq_of_leading (Option.some.inj hstart).symm (by decide)
        rwa [hsingle] at hk
    obtain ⟨body, rest, -, hsome⟩ := closeQuote?_of_mem hq hw hquoted
    rw [hclose] at hsome
    cases hsome
  · have hline : Span.notNewline q = true := by
      rcases hcases with rfl | rfl <;> decide
    rw [unclassified, List.head?_cons, Option.any_some, if_pos hq]
    exact (List.takeWhile_cons_of_pos hline).symm

theorem munched_first (c : Char) (cs : List Char) : Munched (c :: cs) (Span.first c cs) := by
  unfold Span.first
  split
  · next hc =>
    have hlongest :
        Longest Lexeme.blank.language (c :: cs) (c :: cs.takeWhile Span.isSpace) := by
      rw [Lexeme.language_blank]
      exact .cons hc longest_run
    exact .of_class hlongest (by decide) rfl nofun
  split
  · next hc =>
    subst hc
    exact .of_class (k := .comment) (.cons rfl longest_run) (by decide) rfl nofun
  split
  · next hc =>
    subst hc
    exact .of_class (k := .newline) (longest_one rfl) (by decide) rfl nofun
  split
  · next hc => exact munched_number hc
  split
  · next hc =>
    have hlongest :
        Longest Lexeme.name.language (c :: cs) (c :: cs.takeWhile Text.isNameChar) := by
      rw [Lexeme.language_name]
      exact .cons hc longest_run
    exact .of_class hlongest (by decide) (name_terminal _) nofun
  split
  · next hq =>
    split
    · next body rest hclose =>
      have hlongest := longest_string hq hclose
      rcases Quoted.quote_cases hq with rfl | rfl
      · exact .of_class (k := .doubleQuoted) hlongest (by decide) rfl fun _ _ => rfl
      · exact .of_class (k := .singleQuoted) hlongest (by decide) rfl fun _ _ => rfl
    · next hclose => exact munched_unclosed hq hclose
  · next hq =>
    split
    · next kind hkind =>
      have hlongest : Longest Lexeme.punctuation.language (c :: cs) [c] := by
        rw [Lexeme.language_punctuation]
        exact longest_one (by simp [hkind])
      refine .of_class hlongest (by decide) ?_ nofun
      simp [Span.token?, Lexeme.terminal?, hkind]
    · next hkind =>
      have hnone : Lexeme.ofStart? c = none := by
        simp_all [Lexeme.ofStart?, Quoted.isQuote]
      refine .invalid ?_ (by simp [unclassified, hq]) rfl
      rintro w hw ⟨k, hk⟩
      have hstart := ofStart?_of_front hw hk
      rw [hnone] at hstart
      cases hstart

/-! ## The whole text -/

/-- A text is cut into spans, each of them munched from the front of what is left. -/
inductive Cut : List Char → List Span → Prop where
  | nil : Cut [] []
  | cons {s : Span} {rest : List Char} {ss : List Span} (nonempty : s.text ≠ [])
      (munched : Munched (s.text ++ rest) s) (tail : Cut rest ss) : Cut (s.text ++ rest) (s :: ss)

theorem cut_spans (cs : List Char) : Cut cs (spans cs) := by
  fun_induction spans cs with
  | case1 => exact .nil
  | case2 c cs ih =>
    have hmunched := munched_first c cs
    rw [← Span.first_text_rest c cs] at hmunched ⊢
    exact .cons (Span.first_text_ne_nil c cs) hmunched ih

theorem Munched.token_kind {s : Span} {t : Token} (h : Munched cs s) (ht : s.token? = some t) :
    t.kind ∈ terminals ∧ t.kind ≠ "eof" := by
  cases h with
  | lexeme k _ _ hkind _ =>
    rw [ht] at hkind
    exact Lexeme.terminal?_mem hkind.symm
  | invalid _ _ htoken =>
    rw [ht] at htoken
    cases htoken
    have hinvalid : "invalid" ∈ terminals ∧ "invalid" ≠ "eof" := by decide
    exact hinvalid

theorem Cut.token_kinds {ss : List Span} (h : Cut cs ss) :
    ∀ t ∈ ss.filterMap Span.token?, t.kind ∈ terminals ∧ t.kind ≠ "eof" := by
  induction h with
  | nil => simp
  | cons _ hmunched _ ih =>
    intro t ht
    obtain ⟨s, hs, hst⟩ := List.mem_filterMap.mp ht
    rcases List.mem_cons.mp hs with rfl | hs
    · exact hmunched.token_kind hst
    · exact ih t (List.mem_filterMap.mpr ⟨s, hs, hst⟩)

/-- Tokens taken from a cursor one at a time, until there is none. -/
inductive Takes : Cursor → List Token → Prop where
  | done {c c' : Cursor} (h : c.next = (none, c')) : Takes c []
  | take {c c' : Cursor} {t : Token} {ts : List Token} (h : c.next = (some t, c'))
      (tail : Takes c' ts) : Takes c (t :: ts)

theorem tokens_of_scanToken (cs : List Char) :
    (spans cs).filterMap Span.token? =
      match scanToken cs with
      | none => []
      | some (t, rest) => t :: (spans rest).filterMap Span.token? := by
  fun_induction scanToken cs with
  | case1 => simp [spans]
  | case2 c cs t ht => simp [spans, ht]
  | case3 c cs ht ih => rw [← ih, spans, List.filterMap_cons_none ht]

theorem takes_spans (cs : List Char) (line : Int) :
    Takes ⟨cs, line, none⟩ ((spans cs).filterMap Span.token?) := by
  rw [tokens_of_scanToken]
  cases hscan : scanToken cs with
  | none => exact .done (by simp only [Cursor.next, Cursor.take, Cursor.scan, hscan]; rfl)
  | some found =>
    obtain ⟨t, rest⟩ := found
    have := scanToken_lt hscan
    refine .take ?_ (takes_spans rest (t.lineAfter line))
    simp only [Cursor.next, Cursor.take, Cursor.scan, hscan]
    rfl
termination_by cs.length

/-- The scanner is total, loses nothing and takes the longest lexeme each time. -/
theorem tokenize_maximal_munch (text : String) :
    (∃ ss, Cut text.toList ss ∧ tokenize text = ss.filterMap Span.token?) ∧
      Takes (.ofText text) (tokenize text) ∧
      (∀ t ∈ tokenize text, t.kind ∈ terminals ∧ t.kind ≠ "eof") ∧
      ∀ c, [c] ∈ digits ↔ ∃ z ∈ Text.decimalZeros, z ≤ c.toNat ∧ c.toNat < z + 10 := by
  have hcut := cut_spans text.toList
  refine ⟨⟨_, hcut, rfl⟩, takes_spans _ _, hcut.token_kinds, ?_⟩
  intro c
  rw [mem_digits, ← Text.isScanned_iff]
  simp

end ShiftReduce
