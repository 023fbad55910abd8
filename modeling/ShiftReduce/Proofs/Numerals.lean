import Mathlib.Data.Nat.Digits.Defs
import Mathlib.Tactic.Ring
import ShiftReduce.Proofs.Lexemes

/-! # Numbers in the digits of all scripts

A numeral is a row of decimal digits that is not too long, of whatever scripts. It is read as the
number that the values of its digits make in base ten. A row with any other digit in it has no
value.
-/

namespace ShiftReduce

/-! ## Digits -/

namespace Text

theorem digitValue?_lt {c : Char} {d : Nat} (h : digitValue? c = some d) : d < 10 := by
  unfold digitValue? at h
  dsimp only at h
  split at h
  · split at h
    · rw [Option.some.injEq] at h
      omega
    · cases h
  · obtain ⟨z, hz, rfl⟩ := Option.map_eq_some_iff.mp h
    have hrow := List.find?_some hz
    simp only [Bool.and_eq_true, decide_eq_true_eq] at hrow
    omega

theorem isDecimal_of_isDigit {c : Char} (h : c.isDigit = true) : isDecimal c = true := by
  rw [Char.isDigit_iff_toNat] at h
  change 48 ≤ c.toNat ∧ c.toNat ≤ 57 at h
  exact isDecimal_iff.mpr ⟨0x30, by simp, by omega⟩

/-- Whether all blanks lie outside some codes. -/
def clearOfBlanks (low high : Nat) : Bool :=
  0x20 < low && (high < 0x85 || 0xA0 < low) && (high < 0x1680 || 0x1680 < low) &&
    (high < 0x2000 || 0x205F < low) && (high < 0x3000 || 0x3000 < low)

theorem isBlank_of_clear {c : Char} {low high : Nat} (h : clearOfBlanks low high = true)
    (hlow : low ≤ c.toNat) (hhigh : c.toNat ≤ high) : isBlank c = false := by
  simp only [clearOfBlanks, Bool.and_eq_true, Bool.or_eq_true, decide_eq_true_eq] at h
  simp only [isBlank, Bool.or_eq_false_iff, Bool.and_eq_false_iff, decide_eq_false_iff_not,
    beq_eq_false_iff_ne]
  omega

theorem isBlank_of_isScanned {c : Char} (h : isScanned c = true) : isBlank c = false := by
  obtain ⟨z, hz, hle, hlt⟩ := isScanned_iff.mp h
  have hclear : ∀ z ∈ decimalZeros, clearOfBlanks z (z + 9) = true := by decide
  exact isBlank_of_clear (hclear z hz) hle (by omega)

theorem isScanned_of_isDecimal {c : Char} (h : isDecimal c = true) : isScanned c = true := by
  simp [isScanned, h]

theorem isAnyDigit_iff {c : Char} : isAnyDigit c = true ↔
    isDecimal c = true ∨ ∃ r ∈ otherDigits, r.1 ≤ c.toNat ∧ c.toNat ≤ r.2 := by
  unfold isAnyDigit
  rw [Bool.or_eq_true]
  simp

theorem isBlank_of_isAnyDigit {c : Char} (h : isAnyDigit c = true) : isBlank c = false := by
  rcases isAnyDigit_iff.mp h with h | ⟨r, hr, hlow, hhigh⟩
  · exact isBlank_of_isScanned (isScanned_of_isDecimal h)
  · have hclear : ∀ r ∈ otherDigits, clearOfBlanks r.1 r.2 = true := by decide
    exact isBlank_of_clear (hclear r hr) hlow hhigh

end Text

namespace Number

/-- A character that a number has no place for, and that is neither a blank nor a digit with a
value. -/
def Valueless (c : Char) : Prop :=
  0x7F ≤ c.toNat ∧ Text.isBlank c = false ∧ Text.isDecimal c = false

theorem isDecimal_or_valueless {c : Char} (hcode : c.toNat < 0x7F → Text.isDecimal c = true)
    (hblank : Text.isBlank c = false) : Text.isDecimal c = true ∨ Valueless c := by
  cases hd : Text.isDecimal c with
  | true => exact Or.inl rfl
  | false =>
    refine Or.inr ⟨?_, hblank, hd⟩
    by_contra hlow
    have hdecimal := hcode (by omega)
    rw [hd] at hdecimal
    cases hdecimal

theorem isDecimal_or_valueless_of_isScanned {c : Char} (h : Text.isScanned c = true) :
    Text.isDecimal c = true ∨ Valueless c := by
  refine isDecimal_or_valueless (fun hlow => ?_) (Text.isBlank_of_isScanned h)
  have hascii := Text.isScanned_ascii h (by omega)
  exact Text.isDecimal_iff.mpr ⟨0x30, by simp, by omega⟩

theorem isDecimal_or_valueless_of_isAnyDigit {c : Char} (h : Text.isAnyDigit c = true) :
    Text.isDecimal c = true ∨ Valueless c := by
  refine isDecimal_or_valueless (fun hlow => ?_) (Text.isBlank_of_isAnyDigit h)
  rcases Text.isAnyDigit_iff.mp h with hdecimal | ⟨r, hr, hle, -⟩
  · exact hdecimal
  · have hhigh : ∀ r ∈ Text.otherDigits, 0x7F ≤ r.1 := by decide
    have := hhigh r hr
    omega

theorem plainChar_valueless {c : Char} (h : Valueless c) : plainChar c = '?' := by
  obtain ⟨hlow, hblank, hdecimal⟩ := h
  have hnone : Text.digitValue? c = none := by
    simpa [Text.isDecimal] using hdecimal
  unfold plainChar
  rw [if_neg (by omega), if_neg (by simp [hblank]), hnone]

theorem plainChar_digit {c : Char} {d : Nat} (h : Text.digitValue? c = some d) :
    plainChar c = Text.digitChar d := by
  have hdecimal : Text.isDecimal c = true := by simp [Text.isDecimal, h]
  have hblank := Text.isBlank_of_isScanned (Text.isScanned_of_isDecimal hdecimal)
  unfold plainChar
  split
  · next hc =>
    unfold Text.digitValue? at h
    rw [if_pos (by omega)] at h
    split at h
    · rw [Option.some.injEq] at h
      have hcode : 0x30 + d = c.toNat := by omega
      rw [Text.digitChar, hcode, Char.ofNat_toNat]
    · cases h
  · rw [if_neg (by simp [hblank]), h]

theorem digitChar_value {d : Nat} (h : d < 10) :
    (Text.digitChar d).isDigit = true ∧ (Text.digitChar d).toNat - 0x30 = d := by
  revert d
  decide

theorem isAsciiBlank_of_isDigit {c : Char} (h : c.isDigit = true) :
    Text.isAsciiBlank c = false := by
  rw [Char.isDigit_iff_toNat] at h
  change 48 ≤ c.toNat ∧ c.toNat ≤ 57 at h
  simp only [Text.isAsciiBlank, Bool.or_eq_false_iff, Bool.and_eq_false_iff,
    decide_eq_false_iff_not, beq_eq_false_iff_ne]
  omega

theorem isDigit_plainChar {c : Char} (h : Text.isDecimal c = true) :
    (plainChar c).isDigit = true := by
  obtain ⟨d, hd⟩ := Option.isSome_iff_exists.mp h
  rw [plainChar_digit hd]
  exact (digitChar_value (Text.digitValue?_lt hd)).1

theorem plainChar_cases {c : Char} (h : Text.isDecimal c = true ∨ Valueless c) :
    (plainChar c).isDigit = true ∨ plainChar c = '?' := by
  rcases h with hdecimal | hnone
  · exact Or.inl (isDigit_plainChar hdecimal)
  · exact Or.inr (plainChar_valueless hnone)

/-! ## Rows of digits -/

/-- A row of decimal digits that can be read, and its value. -/
structure Numeral (cs : List Char) (n : Nat) : Prop where
  nonempty : cs ≠ []
  short : cs.length ≤ maxDigits
  value : ∃ ds : List Nat, cs.map Text.digitValue? = ds.map some ∧ n = Nat.ofDigits 10 ds.reverse

variable {cs : List Char} {n : Nat}

theorem Numeral.isDecimal (h : Numeral cs n) : ∀ c ∈ cs, Text.isDecimal c = true := by
  obtain ⟨ds, hds, -⟩ := h.value
  intro c hc
  have hsome : Text.digitValue? c ∈ ds.map some := hds ▸ List.mem_map_of_mem hc
  obtain ⟨d, -, hd⟩ := List.mem_map.mp hsome
  simp [Text.isDecimal, ← hd]

theorem digitsValue_digitChar {ds : List Nat} (h : ∀ d ∈ ds, d < 10) :
    digitsValue (ds.map Text.digitChar) = Nat.ofDigits 10 ds.reverse := by
  induction ds using List.reverseRecOn with
  | nil => rfl
  | append_singleton ds d ih =>
    have hlast : digitsValue ((ds ++ [d]).map Text.digitChar) =
        10 * digitsValue (ds.map Text.digitChar) + d := by
      rw [List.map_append, digitsValue, List.foldl_append, List.map_singleton, List.foldl_cons,
        List.foldl_nil, (digitChar_value (h d (by simp))).2]
      rfl
    rw [hlast, ih fun e he => h e (by simp [he]), List.reverse_append, List.reverse_singleton,
      List.singleton_append, Nat.ofDigits_cons]
    ring

theorem map_plainChar {ds : List Nat} (h : cs.map Text.digitValue? = ds.map some) :
    cs.map plainChar = ds.map Text.digitChar ∧ ∀ d ∈ ds, d < 10 := by
  induction cs generalizing ds with
  | nil =>
    obtain rfl : ds = [] := by simpa using h.symm
    simp
  | cons c cs ih =>
    cases ds with
    | nil => simp at h
    | cons d ds =>
      obtain ⟨hd, htail⟩ := List.cons.inj h
      obtain ⟨hmap, hlt⟩ := ih htail
      refine ⟨?_, List.forall_mem_cons.mpr ⟨Text.digitValue?_lt hd, hlt⟩⟩
      rw [List.map_cons, List.map_cons, plainChar_digit hd, hmap]

theorem readInteger_row (hrow : ∀ c ∈ cs, Text.isDecimal c = true ∨ Valueless c) :
    readInteger (String.ofList cs) =
      (readMagnitude (String.ofList cs) (cs.map plainChar)).map fun n => (n : Int) := by
  have hplain : ∀ c ∈ cs.map plainChar, c.isDigit = true ∨ c = '?' := by
    intro c hc
    obtain ⟨d, hd, rfl⟩ := List.mem_map.mp hc
    exact plainChar_cases (hrow d hd)
  -- There are no blanks to drop and no sign, so only the magnitude is read.
  have hother : ∀ c ∈ cs.map plainChar, Text.isAsciiBlank c = false ∧ c ≠ '-' ∧ c ≠ '+' := by
    intro c hc
    rcases hplain c hc with hdigit | rfl
    · exact ⟨isAsciiBlank_of_isDigit hdigit, ne_sign_of_isDigit hdigit⟩
    · decide
  have hsign : splitSign (cs.map plainChar) = (false, cs.map plainChar) :=
    splitSign_unsigned fun c hc => (hother c (List.mem_of_mem_head? hc)).2
  rw [readInteger, String.toList_ofList, trimBy_eq_self fun c hc => (hother c hc).1, hsign]
  rfl

theorem readMagnitude_ok {text : String} {body : List Char} (h : readMagnitude text body = .ok n) :
    (∀ c ∈ body, isNumberChar c = true) ∧ (body.filter Char.isDigit).length ≤ maxDigits := by
  unfold readMagnitude at h
  dsimp only at h
  split at h
  · cases h
  split at h
  · cases h
  · next hlen =>
    split at h
    · cases h
    · next hrest =>
      have hall : ∀ c ∈ body, isNumberChar c = true := by
        rw [← List.dropWhile_eq_nil_iff]
        simpa using hrest
      rw [List.takeWhile_eq_self_iff.mpr hall] at hlen
      exact ⟨hall, by omega⟩

theorem readInteger_numeral (h : Numeral cs n) : readInteger (String.ofList cs) = .ok (n : Int) := by
  obtain ⟨ds, hds, rfl⟩ := h.value
  obtain ⟨hplain, hlt⟩ := map_plainChar hds
  have hrow : ∀ c ∈ cs, Text.isDecimal c = true ∨ Valueless c :=
    fun c hc => Or.inl (h.isDecimal c hc)
  have hdigits : ∀ d ∈ ds.map Text.digitChar, d.isDigit = true := by
    intro d hd
    obtain ⟨e, he, rfl⟩ := List.mem_map.mp hd
    exact (digitChar_value (hlt e he)).1
  have hlen : cs.length = (ds.map Text.digitChar).length := by
    rw [← hplain, List.length_map]
  have hne : ds.map Text.digitChar ≠ [] := by
    rw [← hplain]
    simpa using h.nonempty
  rw [readInteger_row hrow, hplain, readMagnitude_digits _ hdigits hne (hlen ▸ h.short),
    digitsValue_digitChar hlt]
  rfl

theorem readInteger_overlong (hall : ∀ c ∈ cs, Text.isDecimal c = true)
    (hlen : maxDigits < cs.length) :
    readInteger (String.ofList cs) = .error (.tooLong cs.length) := by
  have hdigits : ∀ d ∈ cs.map plainChar, d.isDigit = true := by
    intro d hd
    obtain ⟨c, hc, rfl⟩ := List.mem_map.mp hd
    exact isDigit_plainChar (hall c hc)
  have hne : cs.map plainChar ≠ [] := by
    rintro hnil
    rw [List.map_eq_nil_iff.mp hnil] at hlen
    exact absurd hlen (Nat.not_lt_zero _)
  rw [readInteger_row fun c hc => Or.inl (hall c hc), readMagnitude_eq _ hdigits hne,
    List.length_map, if_pos hlen]
  rfl

theorem Numeral.lt_pow (h : Numeral cs n) : n < 10 ^ maxDigits := by
  obtain ⟨ds, hds, rfl⟩ := h.value
  have hlen : ds.length = cs.length := by simpa using (congrArg List.length hds).symm
  have hlt : ∀ d ∈ ds.reverse, d < 10 := fun d hd => (map_plainChar hds).2 d (List.mem_reverse.mp hd)
  calc Nat.ofDigits 10 ds.reverse < 10 ^ ds.reverse.length :=
        Nat.ofDigits_lt_base_pow_length (by decide) hlt
    _ ≤ 10 ^ maxDigits := Nat.pow_le_pow_right (by decide) (by simpa [hlen] using h.short)

theorem exists_numeral (hne : cs ≠ []) (hall : ∀ c ∈ cs, Text.isDecimal c = true)
    (hlen : cs.length ≤ maxDigits) : ∃ n, Numeral cs n := by
  have hvalues : cs.map Text.digitValue? =
      (cs.map fun c => (Text.digitValue? c).getD 0).map some := by
    rw [List.map_map]
    apply List.map_congr_left
    intro c hc
    obtain ⟨d, hd⟩ := Option.isSome_iff_exists.mp (hall c hc)
    simp [hd]
  exact ⟨_, hne, hlen, _, hvalues, rfl⟩

theorem readInteger_ok_iff (hne : cs ≠ [])
    (hrow : ∀ c ∈ cs, Text.isDecimal c = true ∨ Valueless c) {z : Int} :
    readInteger (String.ofList cs) = .ok z ↔ ∃ n : Nat, Numeral cs n ∧ z = n := by
  constructor
  · intro h
    rw [readInteger_row hrow] at h
    cases hread : readMagnitude (String.ofList cs) (cs.map plainChar) with
    | error f =>
      rw [hread] at h
      cases h
    | ok m =>
      obtain ⟨hnumber, hlen⟩ := readMagnitude_ok hread
      have hdecimal : ∀ c ∈ cs, Text.isDecimal c = true := by
        intro c hc
        rcases hrow c hc with hd | hv
        · exact hd
        · have hbad := hnumber _ (List.mem_map_of_mem hc)
          rw [plainChar_valueless hv] at hbad
          exact absurd hbad (by decide)
      have hdigits : ∀ d ∈ cs.map plainChar, d.isDigit = true := by
        intro d hd
        obtain ⟨c, hc, rfl⟩ := List.mem_map.mp hd
        exact isDigit_plainChar (hdecimal c hc)
      rw [List.filter_eq_self.mpr hdigits, List.length_map] at hlen
      obtain ⟨n, hn⟩ := exists_numeral hne hdecimal hlen
      have hvalue := readInteger_numeral hn
      rw [readInteger_row hrow, h] at hvalue
      exact ⟨n, hn, Except.ok.inj hvalue⟩
  · rintro ⟨n, hn, rfl⟩
    exact readInteger_numeral hn

theorem Numeral.unique {m : Nat} (h : Numeral cs n) (h' : Numeral cs m) : n = m := by
  have hread := (readInteger_numeral h).symm.trans (readInteger_numeral h')
  exact Int.ofNat.inj (Except.ok.inj hread)

theorem numeral_toDigits (h : (Nat.toDigits 10 n).length ≤ maxDigits) :
    Numeral (Nat.toDigits 10 n) n := by
  have hne : Nat.toDigits 10 n ≠ [] := Nat.toDigits_ne_nil
  have hdigits : ∀ d ∈ Nat.toDigits 10 n, d.isDigit = true :=
    fun d hd => Nat.isDigit_of_mem_toDigits (by decide) (by decide) hd
  have hdecimal : ∀ d ∈ Nat.toDigits 10 n, Text.isDecimal d = true :=
    fun d hd => Text.isDecimal_of_isDigit (hdigits d hd)
  obtain ⟨m, hm⟩ := exists_numeral hne hdecimal h
  have hread := readInteger_digits hdigits hne h
  rw [digitsValue_toDigits, readInteger_numeral hm] at hread
  obtain rfl : m = n := Int.ofNat.inj (Except.ok.inj hread)
  exact hm

end Number

end ShiftReduce
