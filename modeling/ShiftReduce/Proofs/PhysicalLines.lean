import ShiftReduce.Proofs.Utf8
import ShiftReduce.Wire.Reader

/-! # The lines of a text, in memory and in a file

A text in memory and the text of a file are split alike, but for carriage returns that stand alone.
A file is read in chunks of bytes. A chunk can end within a line, within a line end and within a
character, and leaves no trace of that.
-/

namespace ShiftReduce.Wire

/-! ## Splitting a text -/

/-- Whether a character ends a line. A carriage return may do so on its own. -/
def endsLine (lone : Bool) (c : Char) : Bool := c == '\n' || (lone && c == '\r')

/-- What a line ends with, in front of the rest of a text. -/
inductive LineEnd (lone : Bool) : List Char → List Char → Prop
  | feed (rest : List Char) : LineEnd lone ['\n'] rest
  | pair (rest : List Char) : LineEnd lone ['\r', '\n'] rest
  | alone {rest : List Char} (hl : lone = true) (h : rest.head? ≠ some '\n') :
      LineEnd lone ['\r'] rest

/-- A way to split a text into lines. -/
structure Splits (lone : Bool) (f : List Char → List (List Char)) : Prop where
  nil : f [] = []
  last {p : List Char} (hp : ∀ c ∈ p, endsLine lone c = false) (hne : p ≠ []) : f p = [p]
  line {p e rest : List Char} (hp : ∀ c ∈ p, endsLine lone c = false) (he : LineEnd lone e rest) :
    f (p ++ e ++ rest) = (p ++ e) :: f rest

theorem feedLinesFrom_append {p : List Char} (hp : ∀ c ∈ p, endsLine false c = false)
    (line rest : List Char) :
    feedLinesFrom line (p ++ rest) = feedLinesFrom (p.reverse ++ line) rest := by
  induction p generalizing line with
  | nil => rfl
  | cons c p ih =>
    have hc : c ≠ '\n' := by
      rintro rfl
      exact absurd (hp '\n' (by simp)) (by decide)
    rw [List.cons_append, feedLinesFrom, if_neg hc, ih fun d hd => hp d (by simp [hd])]
    simp

theorem splits_feedLines : Splits false feedLines where
  nil := rfl
  last {p} hp hne := by
    have h := feedLinesFrom_append hp [] []
    rw [List.append_nil, List.append_nil] at h
    rw [feedLines, h, feedLinesFrom]
    simp [hne]
  line {p e rest} hp he := by
    rw [feedLines, List.append_assoc, feedLinesFrom_append hp]
    cases he with
    | feed => simp [feedLinesFrom, feedLines]
    | pair => simp [feedLinesFrom, feedLines]
    | alone hl => simp at hl

theorem anyLinesFrom_cons {c : Char} {cs : List Char} (h : c = '\r' → cs.head? ≠ some '\n')
    (line : List Char) : anyLinesFrom line (c :: cs) =
      if c = '\n' ∨ c = '\r' then (c :: line).reverse :: anyLinesFrom [] cs
      else anyLinesFrom (c :: line) cs := by
  conv => lhs; unfold anyLinesFrom
  split
  · next heq => simp at heq
  · next heq =>
    obtain ⟨rfl, rfl⟩ := List.cons.inj heq
    exact absurd rfl (h rfl)
  · next heq =>
    obtain ⟨rfl, rfl⟩ := List.cons.inj heq
    rfl

theorem anyLinesFrom_append {p : List Char} (hp : ∀ c ∈ p, endsLine true c = false)
    (line rest : List Char) :
    anyLinesFrom line (p ++ rest) = anyLinesFrom (p.reverse ++ line) rest := by
  induction p generalizing line with
  | nil => rfl
  | cons c p ih =>
    have hc : ¬ (c = '\n' ∨ c = '\r') := by
      have := hp c (by simp)
      simpa [endsLine] using this
    rw [List.cons_append, anyLinesFrom_cons fun hr => absurd (Or.inr hr) hc, if_neg hc,
      ih fun d hd => hp d (by simp [hd])]
    simp

theorem splits_anyLines : Splits true anyLines where
  nil := rfl
  last {p} hp hne := by
    have h := anyLinesFrom_append hp [] []
    rw [List.append_nil, List.append_nil] at h
    rw [anyLines, h, anyLinesFrom]
    simp [hne]
  line {p e rest} hp he := by
    rw [anyLines, List.append_assoc, anyLinesFrom_append hp]
    cases he with
    | feed => simp [anyLinesFrom, anyLines]
    | pair => simp [anyLinesFrom, anyLines]
    | alone hl h =>
      rw [List.singleton_append, anyLinesFrom_cons fun _ => h]
      simp [anyLines]

theorem LineEnd.append {lone : Bool} {e rest : List Char} (h : LineEnd lone e rest)
    {more : List Char} (hm : rest = [] → more.head? ≠ some '\n') : LineEnd lone e (rest ++ more) := by
  cases h with
  | feed => exact .feed _
  | pair => exact .pair _
  | alone hl h =>
    refine .alone hl ?_
    cases rest with
    | nil => exact hm rfl
    | cons c rest => exact h

theorem LineEnd.getLast? {lone : Bool} {e rest : List Char} (h : LineEnd lone e rest) :
    ∃ c, e.getLast? = some c ∧ endsLine lone c = true := by
  cases h with
  | feed => exact ⟨'\n', rfl, by simp [endsLine]⟩
  | pair => exact ⟨'\n', rfl, by simp [endsLine]⟩
  | alone hl => exact ⟨'\r', rfl, by simp [endsLine, hl]⟩

theorem exists_line (lone : Bool) (cs : List Char) :
    (∀ c ∈ cs, endsLine lone c = false) ∨
      ∃ p e rest, cs = p ++ e ++ rest ∧ (∀ c ∈ p, endsLine lone c = false) ∧ LineEnd lone e rest := by
  induction cs with
  | nil => exact Or.inl (by simp)
  | cons c cs ih =>
    cases hc : endsLine lone c with
    | true =>
      refine Or.inr ?_
      simp only [endsLine, Bool.or_eq_true, beq_iff_eq, Bool.and_eq_true] at hc
      rcases hc with rfl | ⟨hl, rfl⟩
      · exact ⟨[], ['\n'], cs, rfl, by simp, .feed cs⟩
      · by_cases hn : cs.head? = some '\n'
        · obtain ⟨rest, rfl⟩ := List.head?_eq_some_iff.mp hn
          exact ⟨[], ['\r', '\n'], rest, rfl, by simp, .pair rest⟩
        · exact ⟨[], ['\r'], cs, rfl, by simp, .alone hl hn⟩
    | false =>
      rcases ih with hn | ⟨p, e, rest, rfl, hp, he⟩
      · exact Or.inl (by simpa [hc] using hn)
      · exact Or.inr ⟨c :: p, e, rest, by simp, by simpa [hc] using hp, he⟩

theorem lines_induction (lone : Bool) {P : List Char → Prop}
    (last : ∀ p, (∀ c ∈ p, endsLine lone c = false) → P p)
    (line : ∀ p e rest, (∀ c ∈ p, endsLine lone c = false) → LineEnd lone e rest → P rest →
      P (p ++ e ++ rest)) (cs : List Char) : P cs := by
  induction hn : cs.length using Nat.strongRecOn generalizing cs with
  | ind n ih =>
    rcases exists_line lone cs with hp | ⟨p, e, rest, rfl, hp, he⟩
    · exact last cs hp
    · refine line p e rest hp he (ih _ ?_ rest rfl)
      have hpos : 0 < e.length := by cases he <;> simp
      rw [← hn, List.length_append, List.length_append]
      omega

section Splits

variable {lone : Bool} {f : List Char → List (List Char)}

theorem Splits.mem_of_mem (hf : Splits lone f) {cs l : List Char} (hl : l ∈ f cs) {c : Char}
    (hc : c ∈ l) : c ∈ cs := by
  induction cs using lines_induction lone with
  | last p hp =>
    cases p with
    | nil => simp [hf.nil] at hl
    | cons d p =>
      rw [hf.last hp (by simp), List.mem_singleton] at hl
      exact hl ▸ hc
  | line p e rest hp he ih =>
    rw [hf.line hp he] at hl
    rcases List.mem_cons.mp hl with rfl | hl
    · exact List.mem_append_left rest hc
    · exact List.mem_append_right (p ++ e) (ih hl)

theorem Splits.append (hf : Splits lone f) {b more : List Char}
    (hb : ∀ c ∈ b.getLast?, endsLine lone c = true) (hm : more.head? ≠ some '\n') :
    f (b ++ more) = f b ++ f more := by
  induction b using lines_induction lone with
  | last p hp =>
    cases hlast : p.getLast? with
    | none => simp [List.getLast?_eq_none_iff.mp hlast, hf.nil]
    | some c =>
      have htrue := hb c hlast
      rw [hp c (List.mem_of_getLast? hlast)] at htrue
      simp at htrue
  | line p e rest hp he ih =>
    have hrest : ∀ c ∈ rest.getLast?, endsLine lone c = true := by
      intro c hc
      refine hb c ?_
      rw [List.getLast?_append]
      rw [Option.mem_def] at hc
      simp [hc]
    rw [List.append_assoc, hf.line hp (he.append fun _ => hm), hf.line hp he, ih hrest]
    rfl

end Splits

/-! ## The lines of a file -/

theorem anyLines_reverse_append {line : List Char} (hline : ∀ c ∈ line, endsLine true c = false)
    (rest : List Char) : anyLines (line.reverse ++ rest) = anyLinesFrom line rest := by
  rw [anyLines, anyLinesFrom_append (by simpa using hline)]
  simp

theorem completeLinesFrom_append {line : List Char} (hline : ∀ c ∈ line, endsLine true c = false)
    (cs more : List Char) :
    anyLinesFrom line (cs ++ more) = (completeLinesFrom line cs).1 ++
      anyLines ((completeLinesFrom line cs).2 ++ more) := by
  -- The line begun holds no line end, so that it can be read again in front of what follows.
  fun_induction completeLinesFrom line cs with
  | case1 line => exact (anyLines_reverse_append hline more).symm
  | case2 line => simp [anyLines_reverse_append hline]
  | case3 line cs ls begun h ih =>
    rw [h] at ih
    simp only [List.cons_append, anyLinesFrom, ih (by simp)]
  | case4 line c cs hsingle hpair hend ls begun h ih =>
    have hhead : c = '\r' → (cs ++ more).head? ≠ some '\n' := by
      intro hc
      cases cs with
      | nil => exact (hsingle hc rfl).elim
      | cons d cs => simpa using fun hd => hpair cs hc (by rw [hd])
    rw [h] at ih
    rw [List.cons_append, anyLinesFrom_cons hhead, if_pos hend, ih (by simp)]
    rfl
  | case5 line c cs hsingle hpair hend ih =>
    rw [List.cons_append, anyLinesFrom_cons fun hr => absurd (Or.inr hr) hend, if_neg hend]
    exact ih (List.forall_mem_cons.mpr ⟨by simpa [endsLine] using hend, hline⟩)

theorem completeLines_append (cs more : List Char) :
    anyLines (cs ++ more) = (completeLines cs).1 ++ anyLines ((completeLines cs).2 ++ more) :=
  completeLinesFrom_append (by simp) cs more

theorem ofChunks_encoded {cs : List Char} {waiting : List UInt8} {parts : List (List UInt8)}
    (h : waiting ++ parts.flatten = cs.flatMap String.utf8EncodeChar) (line : List Char) :
    LineStream.ofChunks line waiting parts = ⟨anyLines (line ++ cs), .clean⟩ := by
  induction parts generalizing cs waiting line with
  | nil =>
    rw [List.flatten_nil, List.append_nil] at h
    rw [LineStream.ofChunks, h, Text.Utf8.decode, Text.Utf8.decodeFrom_encoded]
  | cons chunk rest ih =>
    rw [List.flatten_cons, ← List.append_assoc] at h
    obtain ⟨front, back, waiting', rfl, hback, hpart⟩ := Text.Utf8.decodePart_front h
    rw [LineStream.ofChunks, hpart]
    simp only [ih hback]
    rw [← completeLines_append, List.append_assoc]

theorem flatten_chunks (bytes : List UInt8) : (chunks bytes).flatten = bytes := by
  fun_induction chunks bytes with
  | case1 => rfl
  | case2 b bs ih => rw [List.flatten_cons, ih, List.take_append_drop]

/-- However a file is cut into chunks, its lines are those of the text that was encoded. -/
@[simp]
theorem ofBytes_toUTF8 (text : String) :
    LineStream.ofBytes text.toUTF8.data.toList = ⟨anyLines text.toList, .clean⟩ := by
  have hbytes : [] ++ (chunks text.toUTF8.data.toList).flatten =
      text.toList.flatMap String.utf8EncodeChar := by
    rw [List.nil_append, flatten_chunks, Text.Utf8.toUTF8_eq_flatMap]
  exact ofChunks_encoded hbytes []

end ShiftReduce.Wire
