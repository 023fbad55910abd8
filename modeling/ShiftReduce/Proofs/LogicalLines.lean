import ShiftReduce.Proofs.Numerals
import ShiftReduce.Proofs.WireStream

/-! # What a stream of lines is read as

Physical lines are joined to a logical one until its quotes are closed. Whatever stands there, a
logical line is read as an event: as a mark if it is a number, as a token if it spells one of a
known kind, and else it comes back whole as an invalid token. Only a number with too many digits is
not.
-/

namespace ShiftReduce.Wire

/-! ## Logical lines -/

/-- The text of some lines, without the line end behind the last. -/
def joined (lines : List (List Char)) : List Char := stripEnd lines.flatten

/-- The first logical line of a stream, and the physical lines behind it. Behind blank lines it
takes just as many lines as it needs to close its quotes, or all that there are. -/
inductive FirstLine : List (List Char) → List Char → List (List Char) → Prop
  | intro {blank more rest : List (List Char)} {l : List Char}
      (hblank : ∀ b ∈ blank, isBlankLine b = true) (hl : isBlankLine l = false)
      (hopen : ∀ k < more.length, quotesClosed (joined (l :: more.take k)) = false)
      (hend : quotesClosed (joined (l :: more)) = true ∨ rest = []) :
      FirstLine (blank ++ l :: more ++ rest) (joined (l :: more)) rest

inductive Logical : List (List Char) → List (List Char) → Prop
  | done {lines : List (List Char)} (h : ∀ l ∈ lines, isBlankLine l = true) : Logical lines []
  | line {lines rest bodies : List (List Char)} {body : List Char} (h : FirstLine lines body rest)
      (hrest : Logical rest bodies) : Logical lines (body :: bodies)

theorem FirstLine.length_lt {lines rest : List (List Char)} {body : List Char}
    (h : FirstLine lines body rest) : rest.length < lines.length := by
  cases h with
  | intro => simp; omega

theorem join_closed {raw : List Char} (h : quotesClosed (stripEnd raw) = true)
    (lines : List (List Char)) : join raw lines = (true, stripEnd raw, lines) := by
  unfold join
  simp [h]

theorem join_last {raw : List Char} (h : quotesClosed (stripEnd raw) = false) :
    join raw [] = (false, stripEnd raw, []) := by
  unfold join
  simp [h]

theorem join_more {raw : List Char} (h : quotesClosed (stripEnd raw) = false) (l : List Char)
    (lines : List (List Char)) : join raw (l :: lines) = join (raw ++ l) lines := by
  conv => lhs; unfold join
  simp [h]

theorem join_spec (l : List Char) (more lines : List (List Char))
    (hopen : ∀ k < more.length, quotesClosed (joined (l :: more.take k)) = false) :
    ∃ next rest, lines = next ++ rest ∧
      (∀ k < (more ++ next).length,
        quotesClosed (joined (l :: (more ++ next).take k)) = false) ∧
      join (l :: more).flatten lines =
        (quotesClosed (joined (l :: (more ++ next))), joined (l :: (more ++ next)), rest) ∧
      (quotesClosed (joined (l :: (more ++ next))) = true ∨ rest = []) := by
  -- What was joined so far is `l` and `more`, and their quotes were open at each line end.
  induction lines generalizing more with
  | nil =>
    refine ⟨[], [], rfl, by simpa using hopen, ?_, Or.inr rfl⟩
    rw [List.append_nil]
    cases hclosed : quotesClosed (joined (l :: more)) with
    | true => exact join_closed hclosed []
    | false => exact join_last hclosed
  | cons m ms ih =>
    cases hclosed : quotesClosed (joined (l :: more)) with
    | true =>
      refine ⟨[], m :: ms, rfl, by simpa using hopen, ?_, ?_⟩
      · rw [List.append_nil, hclosed]
        exact join_closed hclosed _
      · rw [List.append_nil]
        exact Or.inl hclosed
    | false =>
      have hopen' : ∀ k < (more ++ [m]).length,
          quotesClosed (joined (l :: (more ++ [m]).take k)) = false := by
        intro k hk
        rw [List.length_append, List.length_singleton] at hk
        rw [List.take_append_of_le_length (by omega)]
        rcases Nat.lt_or_ge k more.length with hlt | hge
        · exact hopen k hlt
        · rw [List.take_of_length_le hge]
          exact hclosed
      obtain ⟨next, rest, rfl, hnext, hjoin, hend⟩ := ih (more ++ [m]) hopen'
      have hmore : more ++ [m] ++ next = more ++ m :: next := by simp
      rw [hmore] at hnext hjoin hend
      refine ⟨m :: next, rest, rfl, hnext, ?_, hend⟩
      rw [join_more hclosed, ← hjoin]
      simp

theorem read_join {lines ls : List (List Char)} {l : List Char}
    (h : lines.dropWhile isBlankLine = l :: ls) :
    LineStream.read ⟨lines, .clean⟩ = (decodeLine (join l ls).2.1, ⟨(join l ls).2.2, .clean⟩) := by
  obtain ⟨more, rest, -, -, hjoin, hend⟩ := join_spec l [] ls (by simp)
  rw [List.nil_append] at hjoin hend
  rw [List.flatten_singleton] at hjoin
  unfold LineStream.read
  simp only [h, hjoin]
  cases hclosed : quotesClosed (joined (l :: more)) with
  | true => rfl
  | false =>
    -- Quotes are left open only where the lines are used up.
    obtain rfl : rest = [] := by simpa [hclosed] using hend
    rfl

theorem read_cases (lines : List (List Char)) :
    (∀ l ∈ lines, isBlankLine l = true) ∧
        LineStream.read ⟨lines, .clean⟩ = (.ok none, ⟨[], .clean⟩) ∨
      ∃ body rest, FirstLine lines body rest ∧
        LineStream.read ⟨lines, .clean⟩ = (decodeLine body, ⟨rest, .clean⟩) := by
  have hsplit := List.takeWhile_append_dropWhile (p := isBlankLine) (l := lines)
  cases hdrop : lines.dropWhile isBlankLine with
  | nil =>
    refine Or.inl ⟨List.dropWhile_eq_nil_iff.mp hdrop, ?_⟩
    unfold LineStream.read
    rw [hdrop]
    rfl
  | cons l ls =>
    have hl : isBlankLine l = false := by
      have hne : lines.dropWhile isBlankLine ≠ [] := by simp [hdrop]
      simpa [hdrop] using List.head_dropWhile_not isBlankLine hne
    obtain ⟨more, rest, rfl, hopen, hjoin, hend⟩ := join_spec l [] ls (by simp)
    rw [List.nil_append] at hopen hjoin hend
    rw [hdrop] at hsplit
    refine Or.inr ⟨joined (l :: more), rest, ?_, ?_⟩
    · rw [← hsplit, ← List.cons_append, ← List.append_assoc]
      exact .intro (fun b hb => List.mem_takeWhile_imp hb) hl hopen hend
    · rw [List.flatten_singleton] at hjoin
      rw [read_join hdrop, hjoin]

/-! ## What a logical line says -/

def IsNumber (body : List Char) : Prop := body ≠ [] ∧ ∀ c ∈ body, c.isDigit = true

/-- A number that has too many digits to be read. -/
def Overlong (body : List Char) : Prop := IsNumber body ∧ Number.maxDigits < body.length

/-- A kind of the vocabulary, a colon, and one value in quotes. -/
def SpellsToken (body : List Char) (t : Token) : Prop :=
  t.kind ∈ terminals ∧ ∃ payload, body = t.kind.toList ++ ':' :: '\'' :: payload ∧
    unquoteChars ('\'' :: payload) = .ok t.text.toList

/-- The event that a logical line stands for. -/
inductive Denotes (body : List Char) : Event → Prop
  | mark {n : Nat} (hbody : IsNumber body) (hn : Number.Numeral body n) : Denotes body (.mark n)
  | token {t : Token} (ht : SpellsToken body t) : Denotes body (.token t)
  | invalid (hnumber : ¬ IsNumber body) (htoken : ∀ t, ¬ SpellsToken body t) :
      Denotes body (.token ⟨"invalid", String.ofList body⟩)

theorem splitToken?_eq_some {body kind payload : List Char}
    (h : splitToken? body = some (kind, payload)) :
    ∃ p, payload = '\'' :: p ∧ body = kind ++ ':' :: '\'' :: p := by
  have hsplit := List.takeWhile_append_dropWhile (p := (· != ':')) (l := body)
  unfold splitToken? at h
  dsimp only at h
  split at h
  · next p hdrop =>
    split at h
    · simp only [Option.some.injEq, Prod.mk.injEq] at h
      obtain ⟨rfl, rfl⟩ := h
      exact ⟨p, rfl, by rw [← hdrop, hsplit]⟩
    · cases h
  · cases h

theorem tokenOf?_eq_some_iff {body : List Char} {t : Token} :
    tokenOf? body = some t ↔ SpellsToken body t := by
  constructor
  · intro h
    unfold tokenOf? at h
    split at h
    · cases h
    · next kind payload hsplit =>
      split at h
      · cases h
      · next text htext =>
        dsimp only at h
        split at h
        · next hkind =>
          obtain rfl := Option.some.inj h
          obtain ⟨p, rfl, rfl⟩ := splitToken?_eq_some hsplit
          exact ⟨List.contains_iff_mem.mp hkind, p, by simp, by simpa using htext⟩
        · cases h
  · rintro ⟨hkind, payload, rfl, htext⟩
    rw [tokenOf?, splitToken?_kind hkind]
    simp only [htext, String.ofList_toList]
    rw [if_pos (List.contains_iff_mem.mpr hkind)]

theorem decodeChars_number {body : List Char} (h : IsNumber body) :
    decodeChars body = (Number.readInteger (String.ofList body)).map Event.mark := by
  rw [decodeChars, if_pos]
  simpa [h.1] using h.2

theorem decodeChars_other {body : List Char} (h : ¬ IsNumber body) :
    decodeChars body = .ok (.token ((tokenOf? body).getD ⟨"invalid", String.ofList body⟩)) := by
  rw [decodeChars, if_neg]
  simpa [IsNumber] using h

theorem isDecimal_of_isNumber {body : List Char} (h : IsNumber body) :
    ∀ c ∈ body, Text.isDecimal c = true :=
  fun c hc => Text.isDecimal_of_isDigit (h.2 c hc)

theorem decodeLine_overlong {body : List Char} (h : Overlong body) :
    decodeLine body = .error (.number (.tooLong body.length)) := by
  unfold decodeLine
  rw [decodeChars_number h.1, Number.readInteger_overlong (isDecimal_of_isNumber h.1) h.2]
  rfl

theorem decodeLine_cases (body : List Char) :
    Overlong body ∨ ∃ e, Denotes body e ∧ decodeLine body = .ok (some e) := by
  by_cases hnumber : IsNumber body
  · by_cases hlen : Number.maxDigits < body.length
    · exact Or.inl ⟨hnumber, hlen⟩
    · obtain ⟨n, hn⟩ := Number.exists_numeral hnumber.1 (isDecimal_of_isNumber hnumber)
        (Nat.not_lt.mp hlen)
      refine Or.inr ⟨.mark n, .mark hnumber hn, ?_⟩
      unfold decodeLine
      rw [decodeChars_number hnumber, Number.readInteger_numeral hn]
      rfl
  · refine Or.inr ?_
    unfold decodeLine
    rw [decodeChars_other hnumber]
    cases htoken : tokenOf? body with
    | some t => exact ⟨_, .token (tokenOf?_eq_some_iff.mp htoken), rfl⟩
    | none =>
      refine ⟨_, .invalid hnumber fun t ht => ?_, rfl⟩
      rw [tokenOf?_eq_some_iff.mpr ht] at htoken
      cases htoken

theorem Denotes.writable {body : List Char} {e : Event} (h : Denotes body e) : Writable e := by
  cases h with
  | @mark n hbody hn =>
    have hlt : (n : Int).toNat < 10 ^ Number.maxDigits := by simpa using hn.lt_pow
    exact ⟨Int.natCast_nonneg n, length_mark_le (Int.natCast_nonneg n) hlt⟩
  | token ht => exact ht.1
  | invalid => simp [Writable, terminals]

/-! ## Reading to the end -/

/-- Reading one event after the other until a read fails. -/
inductive Breaks (fault : ReadFault) : LineStream → List Event → Prop
  | now {s s' : LineStream} (h : s.read = (.error fault, s')) : Breaks fault s []
  | later {s s' : LineStream} {e : Event} {es : List Event} (h : s.read = (.ok (some e), s'))
      (hs : Breaks fault s' es) : Breaks fault s (e :: es)

/-- The events that a stream gives for its first logical lines `done`, until it ends behind the
last of them or comes to a number that is too long. -/
inductive Answers (s : LineStream) (bodies done : List (List Char)) (es : List Event) : Prop
  | all (h : Reads s es) (hdone : done = bodies)
  | upTo {body : List Char} {after : List (List Char)} (hbody : Overlong body)
      (hbodies : bodies = done ++ body :: after)
      (h : Breaks (.number (.tooLong body.length)) s es)

theorem Answers.cons {s s' : LineStream} {bodies done : List (List Char)} {es : List Event}
    {body : List Char} {e : Event} (h : Answers s' bodies done es)
    (hread : s.read = (.ok (some e), s')) : Answers s (body :: bodies) (body :: done) (e :: es) := by
  cases h with
  | all h hdone => exact .all (.more hread h) (by rw [hdone])
  | upTo hbody hbodies h => exact .upTo hbody (by rw [hbodies]; rfl) (.later hread h)

theorem lines_answered (lines : List (List Char)) :
    ∃ bodies, Logical lines bodies ∧ ∃ done es, List.Forall₂ Denotes done es ∧
      Answers ⟨lines, .clean⟩ bodies done es := by
  induction hn : lines.length using Nat.strongRecOn generalizing lines with
  | ind n ih =>
    rcases read_cases lines with ⟨hblank, hread⟩ | ⟨body, rest, hfirst, hread⟩
    · exact ⟨[], .done hblank, [], [], .nil, .all (.done hread) rfl⟩
    · obtain ⟨bodies, hbodies, done, es, hdone, hes⟩ := ih _ (hn ▸ hfirst.length_lt) rest rfl
      refine ⟨body :: bodies, .line hfirst hbodies, ?_⟩
      rcases decodeLine_cases body with hover | ⟨e, he, hdecode⟩
      · rw [decodeLine_overlong hover] at hread
        exact ⟨[], [], .nil, .upTo hover rfl (.now hread)⟩
      · rw [hdecode] at hread
        exact ⟨body :: done, e :: es, .cons he hdone, hes.cons hread⟩

theorem writable_of_denotes {bodies : List (List Char)} {es : List Event}
    (h : List.Forall₂ Denotes bodies es) : ∀ e ∈ es, Writable e := by
  induction h with
  | nil => simp
  | cons he _ ih => exact List.forall_mem_cons.mpr ⟨he.writable, ih⟩

/-- Every text is a row of logical lines, and these are read as what they stand for, one after the
other, down to the end or to a number that is too long. Each event is a mark that is not negative,
or a token of a known kind. -/
theorem lines_read_as_events (text : String) :
    ∃ bodies, Logical (feedLines text.toList) bodies ∧ ∃ done es, List.Forall₂ Denotes done es ∧
      (∀ e ∈ es, Writable e) ∧ Answers (.ofText text) bodies done es := by
  obtain ⟨bodies, hbodies, done, es, hdone, hes⟩ := lines_answered (feedLines text.toList)
  exact ⟨bodies, hbodies, done, es, hdone, writable_of_denotes hdone, hes⟩

theorem read_number {ds : List Char} (h : IsNumber ds) :
    (LineStream.ofText (String.ofList ds)).read = (decodeLine ds, ⟨[], .clean⟩) := by
  obtain ⟨hne, hdigits⟩ := h
  have hname : ∀ c ∈ ds, Text.isNameChar c = true :=
    fun c hc => Text.isNameChar_of_isDigit (hdigits c hc)
  have hfeed : '\n' ∉ ds := fun hmem => absurd (hdigits _ hmem) (by decide)
  have hlines : feedLines ds = [ds] := by
    refine splits_feedLines.last (fun c hc => ?_) hne
    have hne : c ≠ '\n' := ne_of_apply_ne Text.isNameChar (by rw [hname c hc]; decide)
    simpa [endsLine] using hne
  have hdrop : [ds].dropWhile isBlankLine = [ds] := by
    obtain ⟨c, cs, rfl⟩ := List.exists_cons_of_ne_nil hne
    exact List.dropWhile_cons_of_neg
      (by simp [isBlankLine, Text.isBlank_of_isNameChar (hname c (by simp))])
  have hstrip : stripEnd ds = ds :=
    stripEnd_of_getLast? fun hlast => hfeed (List.mem_of_getLast? hlast)
  have hclosed : quotesClosed (stripEnd ds) = true := by
    rw [hstrip, ← List.append_nil ds, quotesClosed_name hname]
    rfl
  rw [LineStream.ofText, String.toList_ofList, hlines, read_join hdrop, join_closed hclosed, hstrip]

theorem breaks_overlong {ds : List Char} (h : Overlong ds) :
    Breaks (.number (.tooLong ds.length)) (.ofText (String.ofList ds)) [] ∧
      ∀ es, ¬ Reads (.ofText (String.ofList ds)) es := by
  have hread := read_number h.1
  rw [decodeLine_overlong h] at hread
  refine ⟨.now hread, fun es hes => ?_⟩
  cases hes with
  | done hs =>
    rw [hread] at hs
    cases hs
  | more hs =>
    rw [hread] at hs
    cases hs

/-- Reading does not come to the end of every text: it fails at a number that is too long. -/
theorem long_number_fails :
    Breaks (.number (.tooLong 4301)) (.ofText (String.ofList (List.replicate 4301 '1'))) [] ∧
      ∀ es, ¬ Reads (.ofText (String.ofList (List.replicate 4301 '1'))) es := by
  have hlong : ∀ n, Number.maxDigits < n → Overlong (List.replicate n '1') := by
    intro n hn
    refine ⟨⟨List.ne_nil_of_length_pos (by rw [List.length_replicate]; omega), ?_⟩,
      by rwa [List.length_replicate]⟩
    intro c hc
    rw [List.eq_of_mem_replicate hc]
    rfl
  have hbreaks := breaks_overlong (hlong 4301 (by decide))
  rwa [List.length_replicate] at hbreaks

end ShiftReduce.Wire
