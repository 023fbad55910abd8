import ShiftReduce.Proofs.PhysicalLines
import ShiftReduce.Proofs.WireLine

/-! # A stream is read back as the events that it was written for

An event may take several lines, since a value may hold line ends. Wherever a line ends within an
event, its quotes are still open, and so the lines of an event are joined, and no others with them.
-/

namespace ShiftReduce.Wire

/-! ## Open quotes -/

theorem quotesClosed_cons {c : Char} (hc : c ≠ '\\') (cs : List Char) :
    quotesClosed (c :: cs) = if c = '\'' then quotesClosed.inQuotes cs else quotesClosed cs := by
  conv => lhs; unfold quotesClosed
  split
  · next h => simp at h
  · next h => exact absurd (List.cons.inj h).1 hc
  · next h => exact absurd (List.cons.inj h).1 hc
  · next h =>
    obtain ⟨rfl, rfl⟩ := List.cons.inj h
    rfl

theorem quotesClosed_name {p : List Char} (hp : ∀ c ∈ p, Text.isNameChar c = true)
    (cs : List Char) : quotesClosed (p ++ cs) = quotesClosed cs := by
  induction p with
  | nil => rfl
  | cons c p ih =>
    have hname := hp c (by simp)
    have hback : c ≠ '\\' := ne_of_apply_ne Text.isNameChar (by rw [hname]; decide)
    have hquote : c ≠ '\'' := ne_of_apply_ne Text.isNameChar (by rw [hname]; decide)
    rw [List.cons_append, quotesClosed_cons hback, if_neg hquote]
    exact ih fun d hd => hp d (by simp [hd])

@[simp]
theorem inQuotes_quoted (cs rest : List Char) :
    quotesClosed.inQuotes (cs.flatMap quoteChar ++ rest) = quotesClosed.inQuotes rest := by
  induction cs with
  | nil => rfl
  | cons c cs ih =>
    rw [List.flatMap_cons, List.append_assoc]
    by_cases hc : c = '\''
    · subst hc
      exact ih
    · rw [quoteChar, if_neg hc, List.singleton_append, quotesClosed.inQuotes, if_neg hc, ih]

theorem append_of_not_mem_left {a b x y : List Char} {c : Char} (hc : c ∉ a)
    (h : a ++ b = x ++ c :: y) : ∃ x', x = a ++ x' ∧ b = x' ++ c :: y := by
  rcases List.append_eq_append_iff.mp h with ⟨x', rfl, hx⟩ | ⟨z, rfl, hz⟩
  · exact ⟨x', rfl, hx⟩
  · cases z with
    | nil => exact ⟨[], by simp, by simpa using hz.symm⟩
    | cons d z =>
      obtain ⟨rfl, -⟩ := List.cons.inj hz
      simp at hc

theorem quoted_of_append {c : Char} (hq : c ≠ '\'') (hb : c ≠ '\\') {cs rest x y : List Char}
    (hr : c ∉ rest) (h : cs.flatMap quoteChar ++ rest = x ++ c :: y) :
    ∃ ds : List Char, x = ds.flatMap quoteChar := by
  induction cs generalizing x with
  | nil =>
    have hmem : c ∈ rest := by
      rw [List.flatMap_nil, List.nil_append] at h
      simp [h]
    exact absurd hmem hr
  | cons d cs ih =>
    rw [List.flatMap_cons, List.append_assoc] at h
    by_cases hd : c = d
    · subst hd
      rw [quoteChar, if_neg hq, List.singleton_append] at h
      cases x with
      | nil => exact ⟨[], rfl⟩
      | cons e x =>
        obtain ⟨rfl, hx⟩ := List.cons.inj h
        obtain ⟨ds, rfl⟩ := ih hx
        exact ⟨c :: ds, by simp [quoteChar, hq]⟩
    · have hc : c ∉ quoteChar d := by
        unfold quoteChar
        split
        · simp [hq, hb]
        · simpa using hd
      obtain ⟨x', rfl, hx⟩ := append_of_not_mem_left hc h
      obtain ⟨ds, rfl⟩ := ih hx
      exact ⟨d :: ds, rfl⟩

/-! ## The lines of an event -/

theorem quotesClosed_encodeChars {e : Event} (he : Writable e) :
    quotesClosed (encodeChars e) = true := by
  cases e with
  | mark line =>
    have hname : ∀ c ∈ encodeChars (.mark line), Text.isNameChar c = true := fun c hc =>
      Text.isNameChar_of_isDigit (isDigit_mark he.1 c hc)
    rw [← List.append_nil (encodeChars (.mark line)), quotesClosed_name hname]
    rfl
  | token t =>
    have hname := Text.isNameChar_of_isName (isName_terminal he)
    rw [encodeChars, quotesClosed_name hname, quotesClosed_cons (by decide), if_neg (by decide)]
    calc quotesClosed (quoteChars t.text.toList)
        = quotesClosed.inQuotes (t.text.toList.flatMap quoteChar ++ ['\'']) := rfl
      _ = quotesClosed.inQuotes ['\''] := inQuotes_quoted _ _
      _ = true := rfl

theorem newline_cases {lone : Bool} {c : Char} (hc : endsLine lone c = true) :
    c = '\n' ∨ c = '\r' := by
  simp only [endsLine, Bool.or_eq_true, beq_iff_eq, Bool.and_eq_true] at hc
  rcases hc with rfl | ⟨-, rfl⟩
  · exact Or.inl rfl
  · exact Or.inr rfl

theorem quotes_open_at_newline {e : Event} (he : Writable e) {c : Char} (hc : c = '\n' ∨ c = '\r')
    {x y : List Char} (h : encodeChars e = x ++ c :: y) :
    quotesClosed x = false ∧ quotesClosed (x ++ [c]) = false := by
  have hquote : c ≠ '\'' := by rcases hc with rfl | rfl <;> decide
  have hback : c ≠ '\\' := by rcases hc with rfl | rfl <;> decide
  have hcolon : c ≠ ':' := by rcases hc with rfl | rfl <;> decide
  have hname : Text.isNameChar c = false := by rcases hc with rfl | rfl <;> decide
  cases e with
  | mark line =>
    have hdigit := isDigit_mark he.1 c (by simp [h])
    rw [Text.isNameChar_of_isDigit hdigit] at hname
    simp at hname
  | token t =>
    have hkind := Text.isNameChar_of_isName (isName_terminal he)
    have hfront : c ∉ t.kind.toList ++ [':', '\''] := by
      have hmem : c ∉ t.kind.toList := fun hmem => by simp [hkind c hmem] at hname
      simp [hmem, hcolon, hquote]
    have hsplit : (t.kind.toList ++ [':', '\'']) ++ (t.text.toList.flatMap quoteChar ++ ['\'']) =
        x ++ c :: y := by
      rw [← h, encodeChars, quoteChars]
      simp
    obtain ⟨x', rfl, hx⟩ := append_of_not_mem_left hfront hsplit
    obtain ⟨ds, rfl⟩ := quoted_of_append hquote hback (by simpa using hquote) hx
    have hopen : ∀ rest, quotesClosed (t.kind.toList ++ [':', '\''] ++ rest) =
        quotesClosed.inQuotes rest := by
      intro rest
      rw [List.append_assoc, quotesClosed_name hkind]
      rfl
    refine ⟨?_, ?_⟩
    · rw [hopen, ← List.append_nil (ds.flatMap quoteChar), inQuotes_quoted]
      rfl
    · rw [List.append_assoc, hopen, inQuotes_quoted, quotesClosed.inQuotes, if_neg hquote]
      rfl

theorem stripEnd_feed (s : List Char) :
    (s.getLast? ≠ some '\r' ∧ stripEnd (s ++ ['\n']) = s) ∨
      ∃ s', s = s' ++ ['\r'] ∧ stripEnd (s ++ ['\n']) = s' := by
  rw [List.getLast?_eq_head?_reverse]
  unfold stripEnd
  split
  · next r h =>
    rw [List.reverse_append, List.reverse_singleton, List.singleton_append, List.cons.injEq] at h
    refine Or.inr ⟨r.reverse, ?_, rfl⟩
    rw [← List.reverse_reverse s, h.2, List.reverse_cons]
  · next r hr h =>
    rw [List.reverse_append, List.reverse_singleton, List.singleton_append, List.cons.injEq] at h
    refine Or.inl ⟨?_, by rw [← h.2, List.reverse_reverse]⟩
    intro hhead
    obtain ⟨r', hr'⟩ := List.head?_eq_some_iff.mp hhead
    exact hr r' (by rw [← h.2, hr'])
  · next h => simp at h

theorem stripEnd_of_getLast? {s : List Char} (h : s.getLast? ≠ some '\n') : stripEnd s = s := by
  rw [List.getLast?_eq_head?_reverse] at h
  unfold stripEnd
  split
  · next heq => simp [heq] at h
  · next heq => simp [heq] at h
  · rfl

theorem quotes_open_at_line_end {e : Event} (he : Writable e) {lone : Bool} {s t rest : List Char}
    (ht : LineEnd lone t rest) (h : encodeChars e = s ++ t ++ rest) :
    quotesClosed (stripEnd (s ++ t)) = false := by
  cases ht with
  | feed =>
    rcases stripEnd_feed s with ⟨-, hs⟩ | ⟨s', rfl, hs⟩
    · rw [hs]
      exact (quotes_open_at_newline he (Or.inl rfl) (by simpa using h)).1
    · rw [hs]
      exact (quotes_open_at_newline he (Or.inr rfl) (by simpa using h)).1
  | pair =>
    have hs : stripEnd (s ++ ['\r', '\n']) = s := by simp [stripEnd]
    rw [hs]
    exact (quotes_open_at_newline he (Or.inr rfl) (by simpa using h)).1
  | alone =>
    rw [stripEnd_of_getLast? (by simp)]
    exact (quotes_open_at_newline he (Or.inr rfl) (by simpa using h)).2

theorem getLast?_encodeChars {e : Event} (he : Writable e) :
    ∃ c, (encodeChars e).getLast? = some c ∧ c ≠ '\n' ∧ c ≠ '\r' := by
  cases e with
  | mark line =>
    cases hlast : (encodeChars (.mark line)).getLast? with
    | none =>
      rw [List.getLast?_eq_none_iff, encodeChars_mark he.1] at hlast
      exact absurd hlast Nat.toDigits_ne_nil
    | some c =>
      have hdigit := isDigit_mark he.1 c (List.mem_of_getLast? hlast)
      have hfeed : c ≠ '\n' := ne_of_apply_ne Char.isDigit (by rw [hdigit]; decide)
      have hreturn : c ≠ '\r' := ne_of_apply_ne Char.isDigit (by rw [hdigit]; decide)
      exact ⟨c, rfl, hfeed, hreturn⟩
  | token t =>
    refine ⟨'\'', ?_, by decide, by decide⟩
    have hquote : encodeChars (.token t) =
        (t.kind.toList ++ ':' :: '\'' :: t.text.toList.flatMap quoteChar) ++ ['\''] := by
      simp [encodeChars, quoteChars]
    rw [hquote, List.getLast?_concat]

/-- What may stand behind an event: a line end, or nothing at all. -/
inductive Terminator : List Char → List Char → Prop
  | feed (rest : List Char) : Terminator ['\n'] rest
  | pair (rest : List Char) : Terminator ['\r', '\n'] rest
  | missing : Terminator [] []

theorem stripEnd_encodeChars {e : Event} (he : Writable e) {t rest : List Char}
    (ht : Terminator t rest) : stripEnd (encodeChars e ++ t) = encodeChars e := by
  obtain ⟨c, hlast, hn, hr⟩ := getLast?_encodeChars he
  cases ht with
  | feed =>
    rcases stripEnd_feed (encodeChars e) with ⟨-, hs⟩ | ⟨s', hs', -⟩
    · exact hs
    · rw [hs', List.getLast?_append] at hlast
      simp [hr.symm] at hlast
  | pair => simp [stripEnd]
  | missing =>
    rw [List.append_nil, stripEnd_of_getLast?]
    rw [hlast]
    simpa using hn

section Splits

variable {lone : Bool} {f : List Char → List (List Char)}

theorem Splits.terminated (hf : Splits lone f) {p t rest : List Char}
    (hp : ∀ c ∈ p, endsLine lone c = false) (hne : p ≠ []) (ht : Terminator t rest) :
    f (p ++ t ++ rest) = (p ++ t) :: f rest := by
  cases ht with
  | feed => exact hf.line hp (.feed rest)
  | pair => exact hf.line hp (.pair rest)
  | missing => simp [hf.last hp hne, hf.nil]

theorem Splits.join_event (hf : Splits lone f) {e : Event} (he : Writable e) {t rest : List Char}
    (ht : Terminator t rest) {raw q : List Char} (h : encodeChars e = raw ++ q) (hq : q ≠ []) :
    ∃ l ls, f (q ++ t ++ rest) = l :: ls ∧ l.head? = q.head? ∧
      join (raw ++ l) ls = (true, encodeChars e, f rest) := by
  -- `raw` is what was joined so far, `q` what is missing of the event.
  induction q using lines_induction lone generalizing raw with
  | last p hp =>
    refine ⟨p ++ t, f rest, hf.terminated hp hq ht, ?_, ?_⟩
    · obtain ⟨c, p, rfl⟩ := List.exists_cons_of_ne_nil hq
      rfl
    · unfold join
      rw [← List.append_assoc, ← h, stripEnd_encodeChars he ht]
      simp [quotesClosed_encodeChars he]
  | line p n q hp hn ih =>
    -- An event does not end with a line end, so something of it is left behind this one.
    have hq' : q ≠ [] := by
      rintro rfl
      obtain ⟨c, hlast, hend⟩ := hn.getLast?
      obtain ⟨d, hlast', hfeed, hreturn⟩ := getLast?_encodeChars he
      rw [h] at hlast'
      simp only [List.append_nil, List.getLast?_append, hlast, Option.some_or,
        Option.some.injEq] at hlast'
      subst hlast'
      rcases newline_cases hend with rfl | rfl
      · exact hfeed rfl
      · exact hreturn rfl
    have hn' : LineEnd lone n (q ++ t ++ rest) := by
      rw [List.append_assoc]
      exact hn.append fun hnil => absurd hnil hq'
    have h' : encodeChars e = (raw ++ (p ++ n)) ++ q := by simpa using h
    obtain ⟨l, ls, hl, -, hjoin⟩ := ih h' hq'
    refine ⟨p ++ n, l :: ls, ?_, ?_, ?_⟩
    · rw [← hl, ← hf.line hp hn']
      simp
    · obtain ⟨c, x, hx⟩ := List.exists_cons_of_ne_nil (l := p ++ n) (by cases hn <;> simp)
      rw [hx]
      rfl
    · have hopen := quotes_open_at_line_end he hn (s := raw ++ p) (by simpa using h)
      rw [List.append_assoc] at hopen
      unfold join
      simpa [hopen] using hjoin

end Splits

/-! ## Whole streams -/

/-- Reading one event after the other until a stream is at its end. -/
inductive Reads : LineStream → List Event → Prop
  | done {s s' : LineStream} (h : s.read = (.ok none, s')) : Reads s []
  | more {s s' : LineStream} {e : Event} {es : List Event} (h : s.read = (.ok (some e), s'))
      (hs : Reads s' es) : Reads s (e :: es)

/-- Whole lines of blanks only. -/
structure BlankLines (lone : Bool) (b : List Char) : Prop where
  blank : ∀ c ∈ b, Text.isBlank c = true
  ended : ∀ c ∈ b.getLast?, endsLine lone c = true

/-- The texts that events are written as: each on its own lines, with blank lines in between. -/
inductive Written (lone : Bool) : List Event → List Char → Prop
  | nil {b : List Char} (hb : ∀ c ∈ b, Text.isBlank c = true) : Written lone [] b
  | last {b : List Char} {e : Event} (hb : BlankLines lone b) (he : Writable e) :
      Written lone [e] (b ++ encodeChars e)
  | cons {b t cs : List Char} {e : Event} {es : List Event} (hb : BlankLines lone b)
      (he : Writable e) (ht : t = ['\n'] ∨ t = ['\r', '\n']) (h : Written lone es cs) :
      Written lone (e :: es) (b ++ encodeChars e ++ t ++ cs)

theorem head?_encodeChars {e : Event} (he : Writable e) :
    ∃ c cs, encodeChars e = c :: cs ∧ Text.isBlank c = false := by
  have hname : ∃ c cs, encodeChars e = c :: cs ∧ Text.isNameChar c = true := by
    cases e with
    | mark line =>
      obtain ⟨c, cs, hc⟩ := List.exists_cons_of_ne_nil (l := encodeChars (.mark line)) (by
        rw [encodeChars_mark he.1]
        exact Nat.toDigits_ne_nil)
      exact ⟨c, cs, hc, Text.isNameChar_of_isDigit (isDigit_mark he.1 c (by simp [hc]))⟩
    | token t =>
      have hkind := isName_terminal he
      cases hk : t.kind.toList with
      | nil => simp [hk, Text.isName] at hkind
      | cons c cs =>
        refine ⟨c, _, by rw [encodeChars, hk, List.cons_append], ?_⟩
        exact Text.isNameChar_of_isName hkind c (by simp [hk])
  obtain ⟨c, cs, hc, hn⟩ := hname
  exact ⟨c, cs, hc, Text.isBlank_of_isNameChar hn⟩

section Splits

variable {lone : Bool} {f : List Char → List (List Char)}

theorem Splits.all_blank (hf : Splits lone f) {b : List Char}
    (hb : ∀ c ∈ b, Text.isBlank c = true) : ∀ l ∈ f b, isBlankLine l = true := by
  intro l hl
  rw [isBlankLine, List.all_eq_true]
  exact fun c hc => hb c (hf.mem_of_mem hl hc)

theorem Splits.read_blank (hf : Splits lone f) {b : List Char}
    (hb : ∀ c ∈ b, Text.isBlank c = true) :
    LineStream.read ⟨f b, .clean⟩ = (.ok none, ⟨[], .clean⟩) := by
  have hdrop : (f b).dropWhile isBlankLine = [] :=
    List.dropWhile_eq_nil_iff.mpr (hf.all_blank hb)
  unfold LineStream.read
  rw [hdrop]
  rfl

theorem Splits.read_event (hf : Splits lone f) {b : List Char} (hb : BlankLines lone b)
    {e : Event} (he : Writable e) {t rest : List Char} (ht : Terminator t rest) :
    LineStream.read ⟨f (b ++ encodeChars e ++ t ++ rest), .clean⟩ =
      (.ok (some e), ⟨f rest, .clean⟩) := by
  obtain ⟨c, cs, hc, hblank⟩ := head?_encodeChars he
  have hcn : c ≠ '\n' := by
    rintro rfl
    exact absurd hblank (by decide)
  obtain ⟨l, ls, hl, hhead, hjoin⟩ := hf.join_event he ht (List.nil_append _).symm (by simp [hc])
  have hlines : f (b ++ encodeChars e ++ t ++ rest) = f b ++ l :: ls := by
    rw [← hl, ← hf.append hb.ended (by simpa [hc] using hcn)]
    simp
  have hl' : isBlankLine l = false := by
    rw [hc, List.head?_cons] at hhead
    obtain ⟨l', rfl⟩ := List.head?_eq_some_iff.mp hhead
    simp [isBlankLine, hblank]
  have hdrop : (f b ++ l :: ls).dropWhile isBlankLine = l :: ls := by
    rw [List.dropWhile_append_of_pos (hf.all_blank hb.blank)]
    exact List.dropWhile_cons_of_neg (by simp [hl'])
  rw [hlines]
  unfold LineStream.read
  rw [List.nil_append] at hjoin
  simp only [hdrop, hjoin, decodeLine, decodeChars_encodeChars he]

theorem Splits.reads (hf : Splits lone f) {es : List Event} {cs : List Char}
    (h : Written lone es cs) : Reads ⟨f cs, .clean⟩ es := by
  induction h with
  | nil hb => exact .done (hf.read_blank hb)
  | @last b e hb he =>
    have hread := hf.read_event hb he .missing
    rw [List.append_nil, List.append_nil] at hread
    exact .more hread (.done (hf.read_blank (b := []) (by simp)))
  | @cons b t cs e es hb he ht _ ih =>
    have ht' : Terminator t cs := by
      rcases ht with rfl | rfl
      · exact .feed cs
      · exact .pair cs
    exact .more (hf.read_event hb he ht') ih

end Splits

/-- A text that was written for events is read back as these, in memory and from a file. -/
theorem written_read_back (text : String) (es : List Event) :
    (Written false es text.toList → Reads (.ofText text) es) ∧
      (Written true es text.toList → Reads (.ofBytes text.toUTF8.data.toList) es) := by
  refine ⟨splits_feedLines.reads, fun h => ?_⟩
  rw [ofBytes_toUTF8]
  exact splits_anyLines.reads h

def brokenValue : List Event :=
  [.mark 7, .token ⟨"string_s", "it's\r\n\n \\\r"⟩, .token ⟨"nl", "\n"⟩]

/-- Three events with blank lines around them. The value in the middle has blank lines of its own. -/
def brokenText : String := " \r\n7\r\n\n\nstring_s:'it'\\''s\r\n\n \\\r'\nnl:'\n'"

theorem written_brokenText (lone : Bool) : Written lone brokenValue brokenText.toList := by
  have htext : brokenText.toList = [' ', '\r', '\n'] ++ encodeChars (.mark 7) ++ ['\r', '\n'] ++
      (['\n', '\n'] ++ encodeChars (.token ⟨"string_s", "it's\r\n\n \\\r"⟩) ++ ['\n'] ++
        ([] ++ encodeChars (.token ⟨"nl", "\n"⟩))) := by decide +kernel
  have hfirst : BlankLines lone [' ', '\r', '\n'] := ⟨by simp [Text.isBlank], by simp [endsLine]⟩
  have hsecond : BlankLines lone ['\n', '\n'] := ⟨by simp [Text.isBlank], by simp [endsLine]⟩
  have hmark : Writable (.mark 7) := ⟨by decide, by decide +kernel⟩
  rw [htext]
  exact .cons hfirst hmark (Or.inr rfl)
    (.cons hsecond (by simp [Writable, terminals]) (Or.inl rfl)
      (.last ⟨by simp, by simp⟩ (by simp [Writable, terminals])))

theorem written_read_back_brokenText :
    Reads (.ofText brokenText) brokenValue ∧
      Reads (.ofBytes brokenText.toUTF8.data.toList) brokenValue :=
  ⟨(written_read_back brokenText brokenValue).1 (written_brokenText false),
    (written_read_back brokenText brokenValue).2 (written_brokenText true)⟩

end ShiftReduce.Wire
