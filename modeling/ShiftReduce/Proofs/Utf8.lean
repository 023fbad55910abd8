import ShiftReduce.Text.Utf8

/-! # Encoded characters are decoded as they were -/

namespace ShiftReduce.Text.Utf8

theorem decodeFrom_cons (position : Nat) {b : UInt8} {bs rest : List UInt8} {lead : Lead}
    {code : Nat} (hl : Lead.of? b.toNat = some lead)
    (ht : tail lead.low lead.high lead.bits 1 lead.tail bs = .ok (code, rest)) :
    decodeFrom position (b :: bs) =
      { decodeFrom (position + 1 + lead.tail) rest with
        chars := Char.ofNat code :: (decodeFrom (position + 1 + lead.tail) rest).chars } := by
  rw [decodeFrom]
  simp only [hl]
  split
  · next h => rw [ht] at h; simp at h
  · next h =>
    rw [ht, Except.ok.injEq, Prod.mk.injEq] at h
    obtain ⟨rfl, rfl⟩ := h
    rfl

theorem tail_cons {low high bits good n : Nat} {b : UInt8} {bs : List UInt8} (hlow : low ≤ b.toNat)
    (hhigh : b.toNat ≤ high) :
    tail low high bits good (n + 1) (b :: bs) =
      tail 0x80 0xBF (bits * 64 + (b.toNat - 0x80)) (good + 1) n bs := by
  rw [tail, if_pos ⟨hlow, hhigh⟩]

theorem Lead.of?_one {b : Nat} (h : b < 0x80) : Lead.of? b = some ⟨b, 0, 0x80, 0xBF⟩ := by
  rw [Lead.of?, if_pos h]

theorem Lead.of?_two {b : Nat} (h : 0xC2 ≤ b ∧ b < 0xE0) :
    Lead.of? b = some ⟨b - 0xC0, 1, 0x80, 0xBF⟩ := by
  rw [Lead.of?, if_neg (by omega), if_neg (by omega), if_pos h.2]

theorem Lead.of?_three {b : Nat} (h : 0xE0 ≤ b ∧ b < 0xF0) :
    Lead.of? b =
      some ⟨b - 0xE0, 2, if b = 0xE0 then 0xA0 else 0x80, if b = 0xED then 0x9F else 0xBF⟩ := by
  rw [Lead.of?, if_neg (by omega), if_neg (by omega), if_neg (by omega), if_pos h.2]

theorem Lead.of?_four {b : Nat} (h : 0xF0 ≤ b ∧ b < 0xF5) :
    Lead.of? b =
      some ⟨b - 0xF0, 3, if b = 0xF0 then 0x90 else 0x80, if b = 0xF4 then 0x8F else 0xBF⟩ := by
  rw [Lead.of?, if_neg (by omega), if_neg (by omega), if_neg (by omega), if_neg (by omega),
    if_pos h.2]

theorem lead_utf8EncodeChar (c : Char) (rest : List UInt8) :
    ∃ b bs lead, String.utf8EncodeChar c ++ rest = b :: bs ∧ Lead.of? b.toNat = some lead ∧
      tail lead.low lead.high lead.bits 1 lead.tail bs = .ok (c.toNat, rest) := by
  have hvalid : c.toNat < 0xD800 ∨ (0xDFFF < c.toNat ∧ c.toNat < 0x110000) := c.valid
  have hnat : ∀ {n}, n < 256 → (UInt8.ofNat n).toNat = n := fun hn => UInt8.toNat_ofNat_of_lt hn
  unfold String.utf8EncodeChar
  simp only [show c.val.toNat = c.toNat from rfl]
  generalize c.toNat = v at hvalid
  split
  · have h₀ := hnat (n := v) (by omega)
    refine ⟨_, _, _, rfl, Lead.of?_one (by omega), ?_⟩
    rw [h₀, tail, List.append_eq, List.nil_append]
  split
  · have h₀ := hnat (n := v / 64 % 0x20 + 0xC0) (by omega)
    have h₁ := hnat (n := v % 0x40 + 0x80) (by omega)
    refine ⟨_, _, _, rfl, Lead.of?_two (by omega), ?_⟩
    dsimp only [List.nil_append, List.append_eq, List.cons_append]
    have hv : (v / 64 % 0x20 + 0xC0 - 0xC0) * 64 + (v % 0x40 + 0x80 - 0x80) = v := by omega
    rw [tail_cons (by omega) (by omega), h₀, h₁, tail, hv]
  split
  · have h₀ := hnat (n := v / 4096 % 0x10 + 0xE0) (by omega)
    have h₁ := hnat (n := v / 64 % 0x40 + 0x80) (by omega)
    have h₂ := hnat (n := v % 0x40 + 0x80) (by omega)
    refine ⟨_, _, _, rfl, Lead.of?_three (by omega), ?_⟩
    dsimp only [List.nil_append, List.append_eq, List.cons_append]
    have hv : ((v / 4096 % 0x10 + 0xE0 - 0xE0) * 64 + (v / 64 % 0x40 + 0x80 - 0x80)) * 64 +
        (v % 0x40 + 0x80 - 0x80) = v := by omega
    -- The bounds on the second byte leave out overlong forms and surrogates.
    rw [tail_cons (by split <;> omega) (by split <;> omega), tail_cons (by omega) (by omega), h₀, h₁,
      h₂, tail, hv]
  · have h₀ := hnat (n := v / 262144 % 0x08 + 0xF0) (by omega)
    have h₁ := hnat (n := v / 4096 % 0x40 + 0x80) (by omega)
    have h₂ := hnat (n := v / 64 % 0x40 + 0x80) (by omega)
    have h₃ := hnat (n := v % 0x40 + 0x80) (by omega)
    refine ⟨_, _, _, rfl, Lead.of?_four (by omega), ?_⟩
    dsimp only [List.nil_append, List.append_eq, List.cons_append]
    have hv : (((v / 262144 % 0x08 + 0xF0 - 0xF0) * 64 + (v / 4096 % 0x40 + 0x80 - 0x80)) * 64 +
        (v / 64 % 0x40 + 0x80 - 0x80)) * 64 + (v % 0x40 + 0x80 - 0x80) = v := by omega
    rw [tail_cons (by split <;> omega) (by split <;> omega), tail_cons (by omega) (by omega),
      tail_cons (by omega) (by omega), h₀, h₁, h₂, h₃, tail, hv]

theorem decodeFrom_char (c : Char) (rest : List UInt8) (position : Nat) :
    decodeFrom position (String.utf8EncodeChar c ++ rest) =
      { decodeFrom (position + (String.utf8EncodeChar c).length) rest with
        chars := c :: (decodeFrom (position + (String.utf8EncodeChar c).length) rest).chars } := by
  obtain ⟨b, bs, lead, hbytes, hlead, htail⟩ := lead_utf8EncodeChar c rest
  have hnext : position + 1 + lead.tail = position + (String.utf8EncodeChar c).length := by
    have hlength := congrArg List.length hbytes
    have htaken : rest.length + lead.tail = bs.length := tail_length htail
    rw [List.length_append, List.length_cons] at hlength
    omega
  rw [hbytes, decodeFrom_cons position hlead htail, Char.ofNat_toNat, hnext]

@[simp]
theorem decodeFrom_encoded (cs : List Char) (position : Nat) :
    decodeFrom position (cs.flatMap String.utf8EncodeChar) = ⟨cs, none⟩ := by
  induction cs generalizing position with
  | nil => rw [List.flatMap_nil, decodeFrom]
  | cons c cs ih => rw [List.flatMap_cons, decodeFrom_char, ih]

theorem toUTF8_eq_flatMap (text : String) :
    text.toUTF8.data.toList = text.toList.flatMap String.utf8EncodeChar := by
  rw [String.toUTF8_eq_toByteArray, ← String.utf8Encode_toList, List.utf8Encode,
    List.toList_data_toByteArray]

@[simp]
theorem decode_toUTF8 (text : String) : decode text.toUTF8.data.toList = ⟨text.toList, none⟩ := by
  rw [toUTF8_eq_flatMap]
  exact decodeFrom_encoded text.toList 0

/-! ## The front of encoded characters -/

theorem tail_cut {low high bits good n : Nat} {bs more : List UInt8} {code : Nat}
    (hmore : more ≠ []) (h : tail low high bits good n (bs ++ more) = .ok (code, [])) :
    ∃ good', tail low high bits good n bs = .error (good', .cutOff) := by
  induction n generalizing low high bits good bs with
  | zero =>
    rw [tail, Except.ok.injEq, Prod.mk.injEq, List.append_eq_nil_iff] at h
    exact absurd h.2.2 hmore
  | succ n ih =>
    cases bs with
    | nil => exact ⟨good, rfl⟩
    | cons b bs =>
      rw [List.cons_append, tail] at h
      split at h
      · next hb =>
        rw [tail, if_pos hb]
        exact ih h
      · cases h

theorem decodeFrom_cut {c : Char} {bytes more : List UInt8} (hbytes : bytes ≠ [])
    (hmore : more ≠ []) (h : String.utf8EncodeChar c = bytes ++ more) (position : Nat) :
    ∃ byte length, decodeFrom position bytes = ⟨[], some ⟨byte, position, length, .cutOff⟩⟩ := by
  obtain ⟨b, bs, lead, hall, hlead, htail⟩ := lead_utf8EncodeChar c []
  obtain ⟨b', bytes, rfl⟩ := List.exists_cons_of_ne_nil hbytes
  rw [List.append_nil, h, List.cons_append, List.cons.injEq] at hall
  obtain ⟨rfl, rfl⟩ := hall
  obtain ⟨good, hcut⟩ := tail_cut hmore htail
  refine ⟨b'.toNat, good, ?_⟩
  rw [decodeFrom]
  simp only [hlead]
  split
  · next good' reason hbad =>
    rw [hcut, Except.error.injEq, Prod.mk.injEq] at hbad
    obtain ⟨rfl, rfl⟩ := hbad
    rfl
  · next hgood => rw [hcut] at hgood; cases hgood

/-- Wherever encoded characters are cut, whole characters are read, and at most one begins. -/
theorem decodeFrom_front {cs : List Char} {bytes more : List UInt8}
    (h : bytes ++ more = cs.flatMap String.utf8EncodeChar) (position : Nat) :
    ∃ front back waiting, cs = front ++ back ∧
      bytes = front.flatMap String.utf8EncodeChar ++ waiting ∧
      (decodeFrom position bytes).chars = front ∧
      (waiting = [] ∧ (decodeFrom position bytes).fault = none ∨
        ∃ byte length, (decodeFrom position bytes).fault = some
          ⟨byte, position + (front.flatMap String.utf8EncodeChar).length, length, .cutOff⟩) := by
  induction cs generalizing bytes position with
  | nil =>
    obtain ⟨rfl, -⟩ := List.append_eq_nil_iff.mp h
    exact ⟨[], [], [], rfl, rfl, by simp [decodeFrom], Or.inl ⟨rfl, by simp [decodeFrom]⟩⟩
  | cons c cs ih =>
    rw [List.flatMap_cons] at h
    by_cases hwhole : String.utf8EncodeChar c <+: bytes
    · obtain ⟨bytes, rfl⟩ := hwhole
      rw [List.append_assoc, List.append_cancel_left_eq] at h
      obtain ⟨front, back, waiting, rfl, rfl, hchars, hfault⟩ :=
        ih h (position + (String.utf8EncodeChar c).length)
      refine ⟨c :: front, back, waiting, rfl, by simp, ?_, ?_⟩
      · rw [decodeFrom_char, hchars]
      · rw [decodeFrom_char]
        simpa [Nat.add_assoc] using hfault
    · have hcut : ∃ missing, missing ≠ [] ∧ String.utf8EncodeChar c = bytes ++ missing := by
        rcases List.append_eq_append_iff.mp h with ⟨missing, hc, -⟩ | ⟨rest, rfl, -⟩
        · refine ⟨missing, ?_, hc⟩
          rintro rfl
          exact hwhole (by simp [hc])
        · exact absurd (List.prefix_append _ _) hwhole
      obtain ⟨missing, hmissing, hc⟩ := hcut
      refine ⟨[], c :: cs, bytes, rfl, rfl, ?_⟩
      by_cases hbytes : bytes = []
      · simp [hbytes, decodeFrom]
      · obtain ⟨byte, length, hd⟩ := decodeFrom_cut hbytes hmissing hc position
        exact ⟨by rw [hd], Or.inr ⟨byte, length, by rw [hd]; rfl⟩⟩

theorem decodePart_front {cs : List Char} {bytes more : List UInt8}
    (h : bytes ++ more = cs.flatMap String.utf8EncodeChar) :
    ∃ front back waiting, cs = front ++ back ∧
      waiting ++ more = back.flatMap String.utf8EncodeChar ∧
      decodePart bytes = .ok (front, waiting) := by
  obtain ⟨front, back, waiting, rfl, rfl, hchars, hfault⟩ := decodeFrom_front h 0
  have hrest : waiting ++ more = back.flatMap String.utf8EncodeChar := by simpa using h
  refine ⟨front, back, waiting, rfl, hrest, ?_⟩
  unfold decodePart decode
  rcases hfault with ⟨rfl, hnone⟩ | ⟨byte, length, hsome⟩
  · simp only [hnone, hchars]
  · simp only [hsome, hchars, isUnfinished]
    simp

end ShiftReduce.Text.Utf8
