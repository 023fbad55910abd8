import Mathlib.Data.List.TakeWhile
import Mathlib.Data.Nat.Digits.Defs
import ShiftReduce.Wire.Line

/-! # A line is read back as the event that it was written for

A value is read back from its quotes, a number from its digits, and so an event from its line.
-/

namespace ShiftReduce

/-! ## Characters of names -/

namespace Text

theorem isNameChar_bounds {c : Char} (h : isNameChar c = true) : 48 ≤ c.toNat ∧ c.toNat ≤ 122 := by
  rw [isNameChar, Bool.or_eq_true, beq_iff_eq] at h
  rcases h with h | rfl
  · change ((c.isUpper || c.isLower) || c.isDigit) = true at h
    rw [Bool.or_eq_true, Bool.or_eq_true] at h
    rcases h with (h | h) | h
    · have hu : 'A'.val ≤ c.val ∧ c.val ≤ 'Z'.val := of_decide_eq_true h
      rw [UInt32.le_iff_toNat_le, UInt32.le_iff_toNat_le] at hu
      change 65 ≤ c.toNat ∧ c.toNat ≤ 90 at hu
      omega
    · change (decide ('a'.val ≤ c.val) && decide (c.val ≤ 'z'.val)) = true at h
      rw [Bool.and_eq_true, decide_eq_true_eq, decide_eq_true_eq, UInt32.le_iff_toNat_le,
        UInt32.le_iff_toNat_le] at h
      change 97 ≤ c.toNat ∧ c.toNat ≤ 122 at h
      omega
    · rw [Char.isDigit_iff_toNat] at h
      change 48 ≤ c.toNat ∧ c.toNat ≤ 57 at h
      omega
  · decide

theorem isNameChar_of_isDigit {c : Char} (h : c.isDigit = true) : isNameChar c = true := by
  simp [isNameChar, Char.isAlphanum, h]

theorem isBlank_of_isNameChar {c : Char} (h : isNameChar c = true) : isBlank c = false := by
  have hb := isNameChar_bounds h
  simp only [isBlank, Bool.or_eq_false_iff, Bool.and_eq_false_iff, decide_eq_false_iff_not,
    beq_eq_false_iff_ne]
  omega

theorem isNameChar_of_isName {cs : List Char} (h : isName cs = true) :
    ∀ c ∈ cs, isNameChar c = true := by
  cases cs with
  | nil => simp
  | cons c cs =>
    simp only [isName, Bool.and_eq_true, List.all_eq_true] at h
    intro d hd
    rcases List.mem_cons.mp hd with rfl | hd
    · have hs := h.1
      simp only [isNameStart, Bool.or_eq_true] at hs
      rcases hs with hs | hs <;> simp [isNameChar, Char.isAlphanum, hs]
    · exact h.2 d hd

end Text

/-! ## Numbers -/

namespace Number

theorem trimBy_eq_self {p : Char → Bool} {cs : List Char} (h : ∀ c ∈ cs, p c = false) :
    Text.trimBy p cs = cs := by
  have hdrop : ∀ l : List Char, (∀ c ∈ l, c ∈ cs) → l.dropWhile p = l := by
    intro l hl
    rw [List.dropWhile_eq_self_iff]
    intro hpos
    simp [h _ (hl _ (List.getElem_mem hpos))]
  rw [Text.trimBy, hdrop cs fun _ hc => hc, hdrop cs.reverse fun _ hc => List.mem_reverse.mp hc,
    List.reverse_reverse]

theorem underscoresFit_of_not_mem {cs : List Char} (h : '_' ∉ cs) (b : Bool) :
    underscoresFit b cs = true := by
  induction cs generalizing b with
  | nil => rfl
  | cons c cs ih =>
    unfold underscoresFit
    split
    · rfl
    · next heq =>
      obtain ⟨rfl, rfl⟩ := List.cons.inj heq
      simp at h
    · next heq =>
      obtain ⟨rfl, rfl⟩ := List.cons.inj heq
      exact ih (fun hmem => h (List.mem_cons_of_mem _ hmem)) _

theorem readMagnitude_eq (text : String) {ds : List Char} (h : ∀ d ∈ ds, d.isDigit = true)
    (hne : ds ≠ []) :
    readMagnitude text ds =
      if maxDigits < ds.length then .error (.tooLong ds.length) else .ok (digitsValue ds) := by
  have hnum : ∀ d ∈ ds, isNumberChar d = true := fun d hd => by simp [isNumberChar, h d hd]
  have htake : ds.takeWhile isNumberChar = ds := List.takeWhile_eq_self_iff.mpr hnum
  have hdrop : ds.dropWhile isNumberChar = [] := List.dropWhile_eq_nil_iff.mpr hnum
  have hfilter : ds.filter Char.isDigit = ds := List.filter_eq_self.mpr h
  have hunderscore : '_' ∉ ds := fun hmem => absurd (h '_' hmem) (by decide)
  simp [readMagnitude, htake, hdrop, hfilter, underscoresFit_of_not_mem hunderscore, hne]

theorem readMagnitude_digits (text : String) {ds : List Char} (h : ∀ d ∈ ds, d.isDigit = true)
    (hne : ds ≠ []) (hlen : ds.length ≤ maxDigits) :
    readMagnitude text ds = .ok (digitsValue ds) := by
  rw [readMagnitude_eq text h hne, if_neg (Nat.not_lt.mpr hlen)]

theorem ne_sign_of_isDigit {c : Char} (h : c.isDigit = true) : c ≠ '-' ∧ c ≠ '+' :=
  ⟨ne_of_apply_ne Char.isDigit (by rw [h]; decide), ne_of_apply_ne Char.isDigit (by rw [h]; decide)⟩

theorem splitSign_unsigned {cs : List Char} (h : ∀ c ∈ cs.head?, c ≠ '-' ∧ c ≠ '+') :
    splitSign cs = (false, cs) := by
  unfold splitSign
  split
  · exact absurd rfl (h '-' (by simp)).1
  · exact absurd rfl (h '+' (by simp)).2
  · rfl

theorem readInteger_digits {ds : List Char} (h : ∀ d ∈ ds, d.isDigit = true) (hne : ds ≠ [])
    (hlen : ds.length ≤ maxDigits) :
    readInteger (String.ofList ds) = .ok (digitsValue ds : Int) := by
  have hbound : ∀ d ∈ ds, 48 ≤ d.toNat ∧ d.toNat ≤ 122 := fun d hd =>
    Text.isNameChar_bounds (Text.isNameChar_of_isDigit (h d hd))
  have hplain : ds.map plainChar = ds := by
    rw [List.map_congr_left (g := id), List.map_id]
    intro d hd
    have := hbound d hd
    rw [plainChar, if_pos (by omega), id]
  have hblank : ∀ d ∈ ds, Text.isAsciiBlank d = false := by
    intro d hd
    have := hbound d hd
    simp only [Text.isAsciiBlank, Bool.or_eq_false_iff, Bool.and_eq_false_iff,
      decide_eq_false_iff_not, beq_eq_false_iff_ne]
    omega
  have hsign : splitSign ds = (false, ds) :=
    splitSign_unsigned fun c hc => ne_sign_of_isDigit (h c (List.mem_of_mem_head? hc))
  rw [readInteger, String.toList_ofList, hplain, trimBy_eq_self hblank, hsign]
  simp only [readMagnitude_digits _ h hne hlen]
  rfl

@[simp]
theorem digitsValue_toDigits (n : Nat) : digitsValue (Nat.toDigits 10 n) = n :=
  Nat.ofDigitChars_ten_toDigits

end Number

namespace Wire

/-! ## Quoted values -/

theorem wordsFrom_quoted (cs word rest : List Char) :
    wordsFrom .single word (cs.flatMap quoteChar ++ rest) =
      wordsFrom .single (cs.reverse ++ word) rest := by
  induction cs generalizing word with
  | nil => rfl
  | cons c cs ih =>
    rw [List.flatMap_cons, List.append_assoc, List.reverse_cons, List.append_assoc]
    -- A quote closes the quotes, is escaped, and opens them again.
    rw [List.singleton_append, ← ih (c :: word)]
    by_cases hc : c = '\''
    · subst hc
      rfl
    · rw [quoteChar, if_neg hc, List.singleton_append, wordsFrom, if_neg hc]

theorem unquoteChars_quoteChars (cs : List Char) : unquoteChars (quoteChars cs) = .ok cs := by
  have hwords : words (quoteChars cs) = .ok [cs] := by
    calc words (quoteChars cs) = wordsFrom .single [] (cs.flatMap quoteChar ++ ['\'']) := rfl
      _ = wordsFrom .single (cs.reverse ++ []) ['\''] := wordsFrom_quoted cs [] ['\'']
      _ = .ok [(cs.reverse ++ []).reverse] := rfl
      _ = .ok [cs] := by simp
  rw [unquoteChars, hwords]

/-! ## Events -/

/-- The events that a line can stand for. -/
def Writable : Event → Prop
  | .token t => t.kind ∈ terminals
  | .mark line => 0 ≤ line ∧ (toString line).length ≤ Number.maxDigits

theorem isName_terminal {kind : String} (h : kind ∈ terminals) : Text.isName kind.toList = true := by
  revert kind
  decide +kernel

theorem encodeChars_mark {line : Int} (h : 0 ≤ line) :
    encodeChars (.mark line) = Nat.toDigits 10 line.toNat := by
  rw [encodeChars, Int.toString_eq_repr, Int.repr_eq_if, if_pos h, Nat.toList_repr]

theorem length_mark_le {line : Int} (h : 0 ≤ line) (hlt : line.toNat < 10 ^ Number.maxDigits) :
    (toString line).length ≤ Number.maxDigits := by
  have hlen : (encodeChars (.mark line)).length ≤ Number.maxDigits := by
    rw [encodeChars_mark h, Nat.length_toDigits_le_iff (by decide) (by decide)]
    exact hlt
  rwa [encodeChars, String.length_toList] at hlen

theorem isDigit_mark {line : Int} (h : 0 ≤ line) :
    ∀ c ∈ encodeChars (.mark line), c.isDigit = true := by
  intro c hc
  rw [encodeChars_mark h] at hc
  exact Nat.isDigit_of_mem_toDigits (by decide) (by decide) hc

theorem splitToken?_kind {kind : String} (h : kind ∈ terminals) (payload : List Char) :
    splitToken? (kind.toList ++ ':' :: '\'' :: payload) = some (kind.toList, '\'' :: payload) := by
  -- No kind has a colon in it, so the first one is that behind the kind.
  have hname := isName_terminal h
  have hne : ∀ c ∈ kind.toList, (c != ':') = true := by
    intro c hc
    have hchar := Text.isNameChar_of_isName hname c hc
    rw [bne_iff_ne]
    exact ne_of_apply_ne Text.isNameChar (by rw [hchar]; decide)
  rw [splitToken?, List.takeWhile_append_of_pos hne, List.dropWhile_append_of_pos hne]
  simp [hname]

theorem splitToken?_encodeChars {t : Token} (h : t.kind ∈ terminals) :
    splitToken? (encodeChars (.token t)) = some (t.kind.toList, quoteChars t.text.toList) :=
  splitToken?_kind h _

theorem decodeChars_encodeChars {e : Event} (h : Writable e) :
    decodeChars (encodeChars e) = .ok e := by
  cases e with
  | mark line =>
    obtain ⟨hline, hlen⟩ := h
    have hdigits := isDigit_mark hline
    have hne : encodeChars (.mark line) ≠ [] := by
      rw [encodeChars_mark hline]
      exact Nat.toDigits_ne_nil
    have hread := Number.readInteger_digits hdigits hne (by rwa [encodeChars, String.length_toList])
    have hvalue : (Number.digitsValue (encodeChars (.mark line)) : Int) = line := by
      rw [encodeChars_mark hline, Number.digitsValue_toDigits]
      omega
    rw [decodeChars, if_pos, hread, hvalue]
    · rfl
    · simpa [hne] using hdigits
  | token t =>
    have hcolon : ':' ∈ encodeChars (.token t) := by simp [encodeChars]
    have htoken : tokenOf? (encodeChars (.token t)) = some t := by
      rw [tokenOf?, splitToken?_encodeChars h]
      simp only [unquoteChars_quoteChars, String.ofList_toList]
      rw [if_pos (List.contains_iff_mem.mpr h)]
    rw [decodeChars, if_neg, htoken]
    · rfl
    · simp only [Bool.and_eq_true, List.all_eq_true, not_and]
      intro _ hall
      exact absurd (hall ':' hcolon) (by decide)

end Wire

end ShiftReduce
