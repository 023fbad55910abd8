import ShiftReduce.Proofs.Numerals
import ShiftReduce.Proofs.SettingsReadBack

/-! # The values of scanned literals

What the scanner takes for a number is read as one, unless it holds a digit that only the scanner
knows or is an integer with too many digits. A string always has the content that is written between
its quotes. So these numbers are all that can make the settings language fail on a text.
-/

namespace ShiftReduce

open scoped Computability

/-! ## Real numbers -/

namespace Number

variable {cs w : List Char}

theorem plainChar_ascii {c : Char} (h : c.toNat < 0x7F) : plainChar c = c := by
  unfold plainChar
  exact if_pos h

/-- An exponent in ASCII, or none. -/
def PlainExponent (cs : List Char) : Prop :=
  cs = [] ∨ ∃ e s ds, cs = e :: (s ++ ds) ∧ (e = 'e' ∨ e = 'E') ∧
    (s = [] ∨ s = ['+'] ∨ s = ['-']) ∧ ds ≠ [] ∧ ∀ d ∈ ds, d.isDigit = true

theorem splitExponent_plain (h : PlainExponent cs) : (splitExponent cs).2 = [] := by
  rcases h with rfl | ⟨e, s, ds, rfl, he, hs, hne, hds⟩
  · rfl
  have hsign : (splitSign (s ++ ds)).2 = ds := by
    rcases hs with rfl | rfl | rfl
    · rw [List.nil_append, splitSign_unsigned]
      exact fun c hc => ne_sign_of_isDigit (hds c (List.mem_of_mem_head? hc))
    · rfl
    · rfl
  have htake : ds.takeWhile Char.isDigit = ds := List.takeWhile_eq_self_iff.mpr hds
  have hdrop : ds.dropWhile Char.isDigit = [] := List.dropWhile_eq_nil_iff.mpr hds
  unfold splitExponent
  simp [he, hsign, htake, hdrop, hne]

theorem head_plainExponent (h : PlainExponent cs) :
    ∀ c ∈ cs.head?, c.isDigit = false ∧ c ≠ '.' := by
  rcases h with rfl | ⟨e, s, ds, rfl, he, -⟩
  · simp
  · intro c hc
    obtain rfl : e = c := by simpa using hc
    rcases he with rfl | rfl <;> decide

theorem takeWhile_digits {ds rest : List Char} (hds : ∀ d ∈ ds, d.isDigit = true)
    (hrest : ∀ c ∈ rest.head?, c.isDigit = false) :
    (ds ++ rest).takeWhile Char.isDigit = ds ∧ (ds ++ rest).dropWhile Char.isDigit = rest := by
  rw [List.takeWhile_append_of_pos hds, List.dropWhile_append_of_pos hds]
  cases rest with
  | nil => simp
  | cons c rest => simp [hrest c rfl]

theorem readDecimal?_isSome {ds rest : List Char} (hne : ds ≠ [])
    (hds : ∀ d ∈ ds, d.isDigit = true)
    (hrest : (∃ fs ex, rest = '.' :: (fs ++ ex) ∧ (∀ d ∈ fs, d.isDigit = true) ∧ PlainExponent ex) ∨
      PlainExponent rest) (negative : Bool) :
    (readDecimal? negative (ds ++ rest)).isSome = true := by
  rcases hrest with ⟨fs, ex, rfl, hfs, hex⟩ | hex
  · have hpoint : ∀ c ∈ ('.' :: (fs ++ ex)).head?, c.isDigit = false := by simp
    obtain ⟨htake, hdrop⟩ := takeWhile_digits hds hpoint
    obtain ⟨htake', hdrop'⟩ := takeWhile_digits hfs fun c hc => (head_plainExponent hex c hc).1
    unfold readDecimal?
    simp [htake, hdrop, splitFraction, htake', hdrop', splitExponent_plain hex, hne]
  · obtain ⟨htake, hdrop⟩ := takeWhile_digits hds fun c hc => (head_plainExponent hex c hc).1
    have hfraction : splitFraction rest = ([], rest) := by
      unfold splitFraction
      split
      · exact absurd rfl (head_plainExponent hex '.' (by simp)).2
      · rfl
    unfold readDecimal?
    simp [htake, hdrop, hfraction, splitExponent_plain hex, hne]

theorem mem_rest_of_mem (h : '?' ∈ cs) : '?' ∈ (splitExponent (splitFraction
    (cs.dropWhile Char.isDigit)).2).2 := by
  have hdigits : ∀ {l : List Char}, '?' ∈ l → '?' ∈ l.dropWhile Char.isDigit := by
    intro l hl
    rw [← List.takeWhile_append_dropWhile (p := Char.isDigit) (l := l), List.mem_append] at hl
    rcases hl with hl | hl
    · exact absurd (List.mem_takeWhile_imp hl) (by decide)
    · exact hl
  have hfraction : ∀ {l : List Char}, '?' ∈ l → '?' ∈ (splitFraction l).2 := by
    intro l hl
    unfold splitFraction
    split
    · exact hdigits (by simpa using hl)
    · exact hl
  have hsign : ∀ {l : List Char}, '?' ∈ l → '?' ∈ (splitSign l).2 := by
    intro l hl
    unfold splitSign
    split
    · simpa using hl
    · simpa using hl
    · exact hl
  have hexponent : ∀ {l : List Char}, '?' ∈ l → '?' ∈ (splitExponent l).2 := by
    intro l hl
    unfold splitExponent
    split
    · split
      · next he =>
        dsimp only
        split
        · exact hl
        · refine hdigits (hsign ?_)
          rcases he with rfl | rfl <;> simpa using hl
      · exact hl
    · simp at hl
  exact hexponent (hfraction (hdigits h))

theorem readDecimal?_eq_none (h : '?' ∈ cs) (negative : Bool) :
    readDecimal? negative cs = none := by
  have hrest := List.ne_nil_of_mem (mem_rest_of_mem h)
  unfold readDecimal?
  simp [hrest]

theorem toLower_of_small {c : Char} (h : c.toNat < 65) : c.toLower = c := by
  unfold Char.toLower
  split
  · next hc =>
    rw [ge_iff_le, UInt32.le_iff_toNat_le] at hc
    exact absurd hc.1 (by simpa using h)
  · rfl

theorem readReal_plain {text : String} {c : Char} {body : List Char}
    (hplain : text.toList.map plainChar = c :: body) (hc : c.isDigit = true ∨ c = '?')
    (hbody : ∀ d ∈ c :: body, d ≠ '_' ∧ Text.isAsciiBlank d = false) :
    (∃ x, readReal text = .ok x) ↔ (readDecimal? false (c :: body)).isSome = true := by
  have hfilter : (c :: body).filter (· != '_') = c :: body :=
    List.filter_eq_self.mpr fun d hd => bne_iff_ne.mpr (hbody d hd).1
  have hfit : underscoresFit false (c :: body) = true :=
    underscoresFit_of_not_mem (fun hmem => (hbody _ hmem).1 rfl) _
  have hsmall : c.toNat < 65 ∧ c ≠ '-' ∧ c ≠ '+' := by
    rcases hc with hdigit | rfl
    · refine ⟨?_, ne_sign_of_isDigit hdigit⟩
      rw [Char.isDigit_iff_toNat] at hdigit
      change 48 ≤ c.toNat ∧ c.toNat ≤ 57 at hdigit
      omega
    · decide
  have hsign : splitSign (c :: body) = (false, c :: body) :=
    splitSign_unsigned (by simpa using hsmall.2)
  have hword : ∀ (e : Char) (es : List Char), 65 ≤ e.toNat →
      String.ofList ((c :: body).map Char.toLower) ≠ String.ofList (e :: es) := by
    intro e es he heq
    rw [String.ofList_inj, List.map_cons, toLower_of_small hsmall.1] at heq
    obtain ⟨rfl, -⟩ := List.cons.inj heq
    omega
  have hnan : String.ofList ((c :: body).map Char.toLower) ≠ "nan" :=
    hword 'n' ['a', 'n'] (by decide)
  have hinf : String.ofList ((c :: body).map Char.toLower) ≠ "inf" :=
    hword 'i' ['n', 'f'] (by decide)
  have hinfinity : String.ofList ((c :: body).map Char.toLower) ≠ "infinity" :=
    hword 'i' ['n', 'f', 'i', 'n', 'i', 't', 'y'] (by decide)
  unfold readReal
  dsimp only
  rw [hplain, hfilter, trimBy_eq_self fun d hd => (hbody d hd).2, hsign, hfit, if_pos rfl,
    readMagnitude?, if_neg hnan, if_neg (not_or.mpr ⟨hinf, hinfinity⟩)]
  cases readDecimal? false (c :: body) <;> simp

end Number

/-! ## Numbers as they are scanned -/

/-- Every digit has a value. The others are of scripts that only the scanner knows. -/
def Text.Valued (cs : List Char) : Prop := ∀ c ∈ cs, isScanned c = true → isDecimal c = true

theorem Text.exists_valueless {cs : List Char} (h : ¬ Valued cs) :
    ∃ c ∈ cs, Number.Valueless c := by
  simp only [Valued, not_forall, Bool.not_eq_true] at h
  obtain ⟨c, hc, hscan, hdecimal⟩ := h
  refine ⟨c, hc, (Number.isDecimal_or_valueless_of_isScanned hscan).resolve_left ?_⟩
  simp [hdecimal]

namespace Number

variable {w : List Char}

theorem readInteger_scanned (hw : w ∈ digits) :
    (Text.Valued w → w.length ≤ maxDigits →
        ∃ n, Numeral w n ∧ readInteger (String.ofList w) = .ok (n : Int)) ∧
      (¬ Text.Valued w ∨ maxDigits < w.length → ∃ f, readInteger (String.ofList w) = .error f) := by
  obtain ⟨hne, hscan⟩ := mem_digits.mp hw
  constructor
  · intro hvalued hlen
    obtain ⟨n, hn⟩ := exists_numeral hne (fun c hc => hvalued c hc (hscan c hc)) hlen
    exact ⟨n, hn, readInteger_numeral hn⟩
  · intro hbad
    have hrow : ∀ c ∈ w, Text.isDecimal c = true ∨ Valueless c :=
      fun c hc => isDecimal_or_valueless_of_isScanned (hscan c hc)
    cases hread : readInteger (String.ofList w) with
    | error f => exact ⟨f, rfl⟩
    | ok z =>
      obtain ⟨n, hn, -⟩ := (readInteger_ok_iff hne hrow).mp hread
      rcases hbad with hvalued | hlong
      · exact absurd (fun c hc _ => hn.isDecimal c hc) hvalued
      · exact absurd hn.short (by omega)

theorem plain_digits (hw : w ∈ digits) (hvalued : Text.Valued w) :
    w.map plainChar ≠ [] ∧ ∀ d ∈ w.map plainChar, d.isDigit = true := by
  obtain ⟨hne, hscan⟩ := mem_digits.mp hw
  refine ⟨by simpa using hne, ?_⟩
  intro d hd
  obtain ⟨c, hc, rfl⟩ := List.mem_map.mp hd
  exact isDigit_plainChar (hvalued c hc (hscan c hc))

theorem plain_exponent (hw : w ∈ exponent) (hvalued : Text.Valued w) :
    PlainExponent (w.map plainChar) := by
  obtain ⟨mark, ds, rfl, ⟨e, s, rfl, he, hs⟩, hds⟩ := mem_exponent.mp hw
  obtain ⟨hne, hdigits⟩ := plain_digits hds fun c hc => hvalued c (by simp [hc])
  have hmark : plainChar e = e := by
    rcases he with rfl | rfl <;> exact plainChar_ascii (by decide)
  have hsign : s.map plainChar = s := by
    rcases hs with rfl | rfl | rfl
    · rfl
    · rw [List.map_singleton, plainChar_ascii (by decide)]
    · rw [List.map_singleton, plainChar_ascii (by decide)]
  refine Or.inr ⟨e, s, ds.map plainChar, ?_, he, hs, hne, hdigits⟩
  rw [List.cons_append, List.map_cons, List.map_append, hmark, hsign]

theorem plain_fraction (hw : w ∈ fraction) (hvalued : Text.Valued w) :
    (∃ fs ex, w.map plainChar = '.' :: (fs ++ ex) ∧ (∀ d ∈ fs, d.isDigit = true) ∧
      PlainExponent ex) ∨ PlainExponent (w.map plainChar) := by
  rcases mem_fraction.mp hw with ⟨ds, ex, rfl, hds, hex⟩ | hex
  · refine Or.inl ⟨ds.map plainChar, ex.map plainChar, ?_, ?_, ?_⟩
    · rw [List.map_cons, List.map_append, plainChar_ascii (by decide)]
    · intro d hd
      obtain ⟨c, hc, rfl⟩ := List.mem_map.mp hd
      exact isDigit_plainChar (hvalued c (by simp [hc]) (hds c hc))
    · rcases hex with rfl | hex
      · exact Or.inl rfl
      · exact plain_exponent hex fun c hc => hvalued c (by simp [hc])
  · exact Or.inr (plain_exponent hex hvalued)

theorem plain_real (hw : w ∈ Lexeme.real.language) :
    ∀ d ∈ w.map plainChar, d ≠ '_' ∧ Text.isAsciiBlank d = false := by
  intro d hd
  obtain ⟨c, hc, rfl⟩ := List.mem_map.mp hd
  rcases Lexeme.chars_real hw c hc with hscan | hmark
  · rcases plainChar_cases (isDecimal_or_valueless_of_isScanned hscan) with hdigit | hnone
    · have hunderscore := ne_of_apply_ne Char.isDigit (y := '_') (by rw [hdigit]; decide)
      exact ⟨hunderscore, isAsciiBlank_of_isDigit hdigit⟩
    · rw [hnone]
      decide
  · have hmarks : (Lexeme.realMarks.all fun c =>
        plainChar c != '_' && !Text.isAsciiBlank (plainChar c)) = true := by decide
    simpa using List.all_eq_true.mp hmarks c hmark

theorem readReal_scanned (hw : w ∈ Lexeme.real.language) :
    (∃ x, readReal (String.ofList w) = .ok x) ↔ Text.Valued w := by
  have hbody := plain_real hw
  rw [language_real] at hw
  obtain ⟨ds, hds, t, ht, rfl⟩ := Language.mem_mul.mp hw
  obtain ⟨hne, hscan⟩ := mem_digits.mp hds
  obtain ⟨c, cs, rfl⟩ := List.exists_cons_of_ne_nil hne
  have hfirst : (plainChar c).isDigit = true ∨ plainChar c = '?' :=
    plainChar_cases (isDecimal_or_valueless_of_isScanned (hscan c (by simp)))
  have hplain : (String.ofList (c :: cs ++ t)).toList.map plainChar =
      plainChar c :: (cs ++ t).map plainChar := by
    rw [String.toList_ofList]
    rfl
  rw [readReal_plain hplain hfirst hbody]
  constructor
  · intro hsome
    by_contra hvalued
    obtain ⟨d, hd, hnone⟩ := Text.exists_valueless hvalued
    have hmem : '?' ∈ (c :: cs ++ t).map plainChar := by
      rw [← plainChar_valueless hnone]
      exact List.mem_map_of_mem hd
    change (readDecimal? false ((c :: cs ++ t).map plainChar)).isSome = true at hsome
    rw [readDecimal?_eq_none hmem] at hsome
    cases hsome
  · intro hvalued
    obtain ⟨hfront, hdigits⟩ :=
      plain_digits hds fun d hd => hvalued d (List.mem_append_left t hd)
    have hrest := plain_fraction ht fun d hd => hvalued d (List.mem_append_right _ hd)
    have hsome := readDecimal?_isSome hfront hdigits hrest false
    rwa [← List.map_append] at hsome

end Number

/-! ## Tokens -/

variable {cs : List Char} {s : Span} {t : Token} {k : Lexeme}

theorem mem_spans (h : s ∈ spans cs) : ∃ c ds, s = Span.first c ds := by
  fun_induction spans cs with
  | case1 => simp at h
  | case2 c cs ih =>
    rcases List.mem_cons.mp h with rfl | h
    · exact ⟨c, cs, rfl⟩
    · exact ih h

theorem word_of_token (hs : s ∈ spans cs) (ht : s.token? = some t)
    (hk : k.terminal? [] = some t.kind) (hname : k ≠ .name) :
    s.text ∈ k.language ∧ (k.isString = false → t.text = String.ofList s.text) := by
  obtain ⟨c, ds, rfl⟩ := mem_spans hs
  cases munched_first c ds with
  | lexeme j _ only hkind htext =>
    rw [ht, Option.map_some] at hkind
    obtain rfl : j = k := Lexeme.eq_of_terminal? hk hname hkind.symm
    exact ⟨(only j).mpr rfl, htext t ht⟩
  | invalid _ _ token =>
    rw [ht] at token
    cases token
    change k.terminal? [] = some "invalid" at hk
    cases k <;> exact absurd hk (by decide)

theorem text_of_token {text : String} (ht : t ∈ tokenize text)
    (hk : k.terminal? [] = some t.kind) (hname : k ≠ .name) (hstring : k.isString = false) :
    ∃ w ∈ k.language, t.text = String.ofList w := by
  obtain ⟨s, hs, hst⟩ := List.mem_filterMap.mp ht
  obtain ⟨hw, htext⟩ := word_of_token hs hst hk hname
  exact ⟨s.text, hw, htext hstring⟩

theorem literal_of_span {q : Char} (hq : Quoted.isQuote q = true) (hs : s ∈ spans cs)
    (hw : s.text ∈ quotedBy q) :
    ∃ body, s.text = q :: body ++ [q] ∧ s.token? = some (literal q (Quoted.decode body)) := by
  obtain ⟨c, ds, rfl⟩ := mem_spans hs
  have hfront : (Span.first c ds).text <+: c :: ds := ⟨_, Span.first_text_rest c ds⟩
  obtain rfl : q = c := by
    obtain ⟨body, htext, -⟩ := mem_quotedBy.mp hw
    rw [htext] at hfront
    exact (List.cons_prefix_cons.mp hfront).1
  obtain ⟨body, rest, htext, hclose⟩ := closeQuote?_of_mem hq hfront hw
  refine ⟨body, htext, ?_⟩
  rw [first_quote hq, hclose]
  simp [Span.token?, literal]

theorem content_of_token (hs : s ∈ spans cs) (ht : s.token? = some t)
    (hkind : t.kind = "string_d" ∨ t.kind = "string_s") :
    ∃ q body, Quoted.isQuote q = true ∧ s.text = q :: body ++ [q] ∧
      Quoted.content t.text = .ok (String.ofList (Quoted.decode body)) := by
  obtain ⟨q, hq, hw⟩ : ∃ q, Quoted.isQuote q = true ∧ s.text ∈ quotedBy q := by
    have hword : ∀ k : Lexeme, k.terminal? [] = some t.kind → k ≠ .name → s.text ∈ k.language :=
      fun k hk hname => (word_of_token hs ht hk hname).1
    rcases hkind with hkind | hkind
    · exact ⟨'"', rfl, hword .doubleQuoted (by rw [hkind]; rfl) (by decide)⟩
    · exact ⟨'\'', rfl, hword .singleQuoted (by rw [hkind]; rfl) (by decide)⟩
  obtain ⟨body, htext, htoken⟩ := literal_of_span hq hs hw
  obtain rfl : t = literal q (Quoted.decode body) := Option.some.inj (ht.symm.trans htoken)
  refine ⟨q, body, hq, htext, ?_⟩
  have hcontent := Quoted.content_literal hq (String.ofList (Quoted.decode body))
  rwa [String.toList_ofList] at hcontent

namespace Settings

/-- A number that the settings language cannot give a value to. -/
def Unvalued (t : Token) : Prop :=
  t.kind = "integer" ∧ 4300 < t.text.length ∨
    (t.kind = "integer" ∨ t.kind = "float") ∧ ¬ Text.Valued t.text.toList

theorem Refused.exists_unreadable {us : List Token} (h : Refused us) : ∃ t ∈ us, Unreadable t := by
  induction h with
  | @here k x e t s us _ ht => exact ⟨t, by simp, ht⟩
  | later _ _ ih =>
    obtain ⟨t, ht, hu⟩ := ih
    exact ⟨t, List.mem_append_right _ ht, hu⟩

theorem mem_of_mem_significant {ts : List Token} (h : t ∈ significant ts) : t ∈ ts :=
  (List.takeWhile_sublist _).subset (List.mem_filter.mp h).1

theorem Unreadable.unvalued {text : String} (ht : t ∈ tokenize text) (h : Unreadable t) :
    Unvalued t := by
  obtain ⟨hkind, hnone⟩ := h
  simp only [valueKinds, List.mem_cons, List.not_mem_nil, or_false] at hkind
  have hstring : ¬ (t.kind = "string_d" ∨ t.kind = "string_s") := by
    intro hk
    obtain ⟨s, hs, hst⟩ := List.mem_filterMap.mp ht
    obtain ⟨q, body, -, -, hcontent⟩ := content_of_token hs hst hk
    exact hnone _ (.string hk hcontent)
  rcases hkind with hk | hk | hk | hk | hk
  · obtain ⟨w, hw, htext⟩ := text_of_token (k := .integer) ht (by rw [hk]; rfl) (by decide) rfl
    have hword : w = t.text.toList := by rw [htext, String.toList_ofList]
    by_contra hvalued
    simp only [Unvalued, hk, true_and, true_or, not_or, not_not, ← hword] at hvalued
    rw [htext, String.length_ofList] at hvalued
    obtain ⟨n, -, hread⟩ := (Number.readInteger_scanned hw).1 hvalued.2 (Nat.not_lt.mp hvalued.1)
    exact hnone _ (.integer hk (htext ▸ hread))
  · obtain ⟨w, hw, htext⟩ := text_of_token (k := .real) ht (by rw [hk]; rfl) (by decide) rfl
    have hword : w = t.text.toList := by rw [htext, String.toList_ofList]
    refine Or.inr ⟨Or.inr hk, fun hvalued => ?_⟩
    obtain ⟨x, hread⟩ := (Number.readReal_scanned hw).mpr (hword ▸ hvalued)
    exact hnone _ (.real hk (htext ▸ hread))
  · exact absurd (Or.inl hk) hstring
  · exact absurd (Or.inr hk) hstring
  · exact absurd (.name hk) (hnone _)

theorem text_refused (text : String) (name : Option String) (debug : Bool) :
    ∃ i, Input.text name none (some text) = .ok i ∧
      ∃ r d, (machine debug).Parses ((machine debug).start (.ofInputs [i])) r d ∧
        ((∃ f, r = .error (.reduction f)) ↔ Refused (significant (tokenize text))) := by
  refine ⟨_, rfl, ?_⟩
  have htokens := tokens_text (Input.nameFrom name none "<string>") text
  obtain ⟨z, rest, hz, h⟩ := stands_of_tokens (m := machine debug) rfl htokens (placed_tokens _ _)
  rcases judged (significant_ne_eof _) hz .start h with ⟨sts, hp⟩ | hu | ⟨d, e, hend, -⟩
  · obtain ⟨d, hend⟩ := hp.accepted hz .start h
    exact ⟨_, d, hend.parses validate_rules, by simp, fun hu => hu.outcome .start h hend⟩
  · obtain ⟨d, f, hend⟩ := hu.fails .start h
    exact ⟨_, d, hend.parses validate_rules, fun _ => hu, fun _ => ⟨f, rfl⟩⟩
  · exact ⟨_, d, hend.parses validate_rules, by simp, fun hu => hu.outcome .start h hend⟩

/-- An integer of a text has the value of its digits in base ten, and a real number has a value,
unless one of the digits is known to the scanner only or an integer has too many of them. A string
has the content between its quotes. So only such a number can make the settings language fail. -/
theorem literals_have_values (text : String) (name : Option String) (debug : Bool) :
    (∀ t ∈ tokenize text, t.kind = "integer" →
      (Text.Valued t.text.toList → t.text.length ≤ 4300 → ∃ ds : List Nat,
        t.text.toList.map Text.digitValue? = ds.map some ∧
          Number.readInteger t.text = .ok (Nat.ofDigits 10 ds.reverse : Nat)) ∧
        (Unvalued t → ∃ f, Number.readInteger t.text = .error f)) ∧
      (∀ t ∈ tokenize text, t.kind = "float" →
        ((∃ x, Number.readReal t.text = .ok x) ↔ Text.Valued t.text.toList)) ∧
      (∀ s ∈ spans text.toList, ∀ t, s.token? = some t →
        t.kind = "string_d" ∨ t.kind = "string_s" →
          ∃ q body, Quoted.isQuote q = true ∧ s.text = q :: body ++ [q] ∧
            Quoted.content t.text = .ok (String.ofList (Quoted.decode body))) ∧
      ∃ i tbl, Input.text name none (some text) = .ok i ∧ Grammar.settings.table = .ok tbl ∧
        let m : Machine Value := { table := tbl, rules := Grammar.settings.rules, debug := debug }
        ∃ r d, m.Parses (m.start (.ofInputs [i])) r d ∧
          ((∃ f, r = .error (.reduction f)) → ∃ t ∈ tokenize text, Unvalued t) := by
  refine ⟨?_, ?_, fun s hs t => content_of_token hs, ?_⟩
  · intro t ht hk
    obtain ⟨w, hw, htext⟩ := text_of_token (k := .integer) ht (by rw [hk]; rfl) (by decide) rfl
    obtain ⟨hgood, hbad⟩ := Number.readInteger_scanned hw
    rw [Unvalued, htext, String.toList_ofList, String.length_ofList]
    constructor
    · intro hvalued hlen
      obtain ⟨n, ⟨-, -, ds, hds, rfl⟩, hread⟩ := hgood hvalued hlen
      exact ⟨ds, hds, hread⟩
    · rintro (⟨-, hlong⟩ | ⟨-, hvalued⟩)
      · exact hbad (Or.inr hlong)
      · exact hbad (Or.inl hvalued)
  · intro t ht hk
    obtain ⟨w, hw, htext⟩ := text_of_token (k := .real) ht (by rw [hk]; rfl) (by decide) rfl
    rw [htext, String.toList_ofList]
    exact Number.readReal_scanned hw
  · obtain ⟨i, hi, r, d, hparses, hr⟩ := text_refused text name debug
    refine ⟨i, table, hi, table_settings, r, d, hparses, fun hf => ?_⟩
    obtain ⟨t, ht, hu⟩ := (hr.mp hf).exists_unreadable
    have hmem := mem_of_mem_significant ht
    exact ⟨t, hmem, hu.unvalued hmem⟩

/-- A digit of a script that only the scanner knows is scanned as an integer that has no value. -/
theorem scanned_digit_refused :
    tokenize "set a = 𞓷;" = [⟨"kw_set", "set"⟩, ⟨"ident", "a"⟩, ⟨"equal", "="⟩,
        ⟨"integer", "𞓷"⟩, ⟨"semicolon", ";"⟩] ∧
      Number.readInteger "𞓷" = .error (.malformed "𞓷") ∧
      ∃ i tbl, Input.text none none (some "set a = 𞓷;") = .ok i ∧
        Grammar.settings.table = .ok tbl ∧
        let m : Machine Value := { table := tbl, rules := Grammar.settings.rules }
        ∃ f d, m.Parses (m.start (.ofInputs [i])) (.error (.reduction f)) d := by
  have htokens : tokenize "set a = 𞓷;" = [⟨"kw_set", "set"⟩, ⟨"ident", "a"⟩, ⟨"equal", "="⟩,
      ⟨"integer", "𞓷"⟩, ⟨"semicolon", ";"⟩] := by decide +kernel
  have hread : Number.readInteger "𞓷" = .error (.malformed "𞓷") := by decide +kernel
  have hunreadable : Unreadable ⟨"integer", "𞓷"⟩ := by
    refine ⟨by decide, fun v hv => ?_⟩
    obtain ⟨n, hn, -⟩ := (denotes_integer rfl v).mp hv
    rw [hread] at hn
    cases hn
  have hrefused : Refused (significant (tokenize "set a = 𞓷;")) := by
    rw [htokens]
    exact .here ⟨rfl, rfl, rfl, rfl⟩ hunreadable
  obtain ⟨i, hi, r, d, hparses, hr⟩ := text_refused "set a = 𞓷;" none false
  obtain ⟨f, rfl⟩ := hr.mpr hrefused
  exact ⟨htokens, hread, i, table, hi, table_settings, f, d, hparses⟩

end Settings

end ShiftReduce
