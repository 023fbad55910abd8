import ShiftReduce.Proofs.LogicalLines

/-! # When a line that spells a token is read on its own

Two scanners look at the quotes of a line. The reader of a stream minds single quotes only, and
goes on to the next line while one is open. The reader of words knows double quotes as well. They
agree as long as no single quote stands between double quotes. Besides, a carriage return at the end
of a line goes with the line end, also where a backslash stands in front of it.
-/

namespace ShiftReduce.Wire

/-! ## Modes behind a text -/

/-- Where a reader of words stands behind one more character. -/
def Mode.step (m : Mode) (c : Char) : Mode :=
  match m with
  | .between | .bare => if isSeparator c then .between else (Mode.enter c).1
  | .single => if c = '\'' then .bare else .single
  | .double => if c = '"' then .bare else if c = '\\' then .escapedInDouble else .double
  | .escaped => .bare
  | .escapedInDouble => .double

def Mode.behind (m : Mode) (cs : List Char) : Mode := cs.foldl Mode.step m

@[simp]
theorem Mode.behind_cons (m : Mode) (c : Char) (cs : List Char) :
    m.behind (c :: cs) = (m.step c).behind cs := rfl

@[simp]
theorem Mode.behind_append (m : Mode) (x y : List Char) :
    m.behind (x ++ y) = (m.behind x).behind y := List.foldl_append

theorem wordsFrom_step (m : Mode) (word : List Char) (c : Char) :
    (∃ word', ∀ y, wordsFrom m word (c :: y) = wordsFrom (m.step c) word' y) ∨
      ∀ y, wordsFrom m word (c :: y) = (wordsFrom (m.step c) [] y).map (word.reverse :: ·) := by
  cases m with
  | between =>
    cases hc : isSeparator c with
    | true => exact Or.inl ⟨[], fun y => by simp [wordsFrom, Mode.step, hc]⟩
    | false => exact Or.inl ⟨_, fun y => by simp [wordsFrom, Mode.step, hc]; rfl⟩
  | bare =>
    cases hc : isSeparator c with
    | true => exact Or.inr fun y => by simp [wordsFrom, Mode.step, hc]
    | false => exact Or.inl ⟨_, fun y => by simp [wordsFrom, Mode.step, hc]; rfl⟩
  | single =>
    by_cases hc : c = '\''
    · exact Or.inl ⟨word, fun y => by simp [wordsFrom, Mode.step, hc]⟩
    · exact Or.inl ⟨c :: word, fun y => by simp [wordsFrom, Mode.step, hc]⟩
  | double =>
    by_cases hq : c = '"'
    · exact Or.inl ⟨word, fun y => by simp [wordsFrom, Mode.step, hq]⟩
    · by_cases hb : c = '\\'
      · exact Or.inl ⟨word, fun y => by simp [wordsFrom, Mode.step, hb]⟩
      · exact Or.inl ⟨c :: word, fun y => by simp [wordsFrom, Mode.step, hq, hb]⟩
  | escaped => exact Or.inl ⟨c :: word, fun y => rfl⟩
  | escapedInDouble =>
    by_cases hc : c = '"' ∨ c = '\\'
    · exact Or.inl ⟨c :: word, fun y => by simp [wordsFrom, Mode.step, hc]⟩
    · exact Or.inl ⟨c :: '\\' :: word, fun y => by simp [wordsFrom, Mode.step, hc]⟩

/-- Reading goes on from the mode behind what was read, with some words done and one begun. -/
theorem wordsFrom_behind (m : Mode) (word x : List Char) :
    ∃ ws word', ∀ y,
      wordsFrom m word (x ++ y) = (wordsFrom (m.behind x) word' y).map (ws ++ ·) := by
  induction x generalizing m word with
  | nil =>
    refine ⟨[], word, fun y => ?_⟩
    change wordsFrom m word y = (wordsFrom m word y).map id
    cases wordsFrom m word y <;> rfl
  | cons c x ih =>
    rcases wordsFrom_step m word c with ⟨word', hstep⟩ | hstep
    · obtain ⟨ws, word'', hrest⟩ := ih (m.step c) word'
      exact ⟨ws, word'', fun y => by simp [hstep, hrest]⟩
    · obtain ⟨ws, word'', hrest⟩ := ih (m.step c) []
      refine ⟨word.reverse :: ws, word'', fun y => ?_⟩
      rw [List.cons_append, hstep, hrest, Mode.behind_cons]
      cases wordsFrom ((m.step c).behind x) word'' y <;> rfl

/-- The modes in which a text may end. -/
def Mode.IsRest (m : Mode) : Prop := m = .between ∨ m = .bare

theorem isRest_of_unquoted {p text : List Char} (h : unquoteChars p = .ok text) :
    (Mode.between.behind p).IsRest := by
  obtain ⟨ws, word, hwords⟩ := wordsFrom_behind .between [] p
  have hend := hwords []
  rw [List.append_nil] at hend
  unfold unquoteChars words at h
  rw [hend] at h
  cases hm : Mode.between.behind p with
  | between => exact Or.inl rfl
  | bare => exact Or.inr rfl
  | single | double | escaped | escapedInDouble => rw [hm] at h; cases h

theorem unquoteChars_return {p : List Char} (h : (Mode.between.behind p).IsRest) :
    unquoteChars (p ++ ['\r']) = unquoteChars p := by
  obtain ⟨ws, word, hwords⟩ := wordsFrom_behind .between [] p
  have hend := hwords []
  rw [List.append_nil] at hend
  unfold unquoteChars words
  rw [hwords, hend]
  rcases h with h | h <;> rw [h] <;> rfl

theorem getLast?_of_escaped {p text : List Char} {c : Char}
    (hp : Mode.between.behind p = .escaped) (h : unquoteChars (p ++ [c]) = .ok text) :
    text.getLast? = some c := by
  obtain ⟨ws, word, hwords⟩ := wordsFrom_behind .between [] p
  have hend : words (p ++ [c]) = .ok (ws ++ [(c :: word).reverse]) := by
    rw [words, hwords, hp]
    rfl
  unfold unquoteChars at h
  rw [hend] at h
  cases ws with
  | nil =>
    obtain rfl := Except.ok.inj h
    simp
  | cons w ws => cases ws <;> cases h

theorem Mode.eq_backslash_of_step {m : Mode} {c : Char} (h : m.step c = .escaped) : c = '\\' := by
  unfold step enter at h
  grind

theorem exists_of_escaped {x : List Char} (h : Mode.between.behind x = .escaped) :
    ∃ y, x = y ++ ['\\'] := by
  rcases List.eq_nil_or_concat x with rfl | ⟨y, c, rfl⟩
  · cases h
  · rw [List.concat_eq_append, Mode.behind_append] at h
    exact ⟨y, by rw [Mode.eq_backslash_of_step h, List.concat_eq_append]⟩

theorem Mode.of_step_return {m : Mode} (h : (m.step '\r').IsRest) : m.IsRest ∨ m = .escaped := by
  cases m <;> simp_all [step, IsRest, isSeparator]

/-! ## Two ways to look at quotes -/

/-- Whether the single quotes of a text are closed, for a reader of words in mode `m`. -/
def Mode.closes (m : Mode) (cs : List Char) : Bool :=
  match m with
  | .between | .bare | .double => quotesClosed cs
  | .single => quotesClosed.inQuotes cs
  | .escaped | .escapedInDouble => quotesClosed cs.tail

theorem quotesClosed_backslash (cs : List Char) :
    quotesClosed ('\\' :: cs) = quotesClosed cs.tail := by
  cases cs <;> rfl

theorem Mode.closes_step {m : Mode} {c : Char} (h : m = .double → c ≠ '\'') (cs : List Char) :
    m.closes (c :: cs) = (m.step c).closes cs := by
  by_cases hback : c = '\\'
  · subst hback
    cases m <;>
      simp [closes, step, enter, isSeparator, quotesClosed_backslash, quotesClosed.inQuotes]
  · have hcons := quotesClosed_cons hback cs
    unfold closes step enter
    cases m <;> grind [quotesClosed.inQuotes, isSeparator]

/-- A single quote stands between double quotes, and no backslash takes its meaning away. -/
def SingleInDouble (m : Mode) (cs : List Char) : Prop :=
  ∃ x y, cs = x ++ '\'' :: y ∧ m.behind x = .double

theorem Mode.closes_behind {m : Mode} {cs : List Char} (h : ¬ SingleInDouble m cs) :
    m.closes cs = (m.behind cs).closes [] := by
  induction cs generalizing m with
  | nil => rfl
  | cons c cs ih =>
    have hfirst : m = .double → c ≠ '\'' := by
      rintro rfl rfl
      exact h ⟨[], cs, rfl, rfl⟩
    have hrest : ¬ SingleInDouble (m.step c) cs := by
      rintro ⟨x, y, rfl, hx⟩
      exact h ⟨c :: x, y, rfl, hx⟩
    rw [closes_step hfirst, ih hrest, behind_cons]

theorem quotesClosed_of_isRest {cs : List Char} (hrest : (Mode.between.behind cs).IsRest)
    (h : ¬ SingleInDouble .between cs) : quotesClosed cs = true := by
  have hcloses := Mode.closes_behind h
  rcases hrest with hm | hm <;> rw [hm] at hcloses <;> exact hcloses

theorem quotesClosed_snoc {c : Char} (hc : c ≠ '\'') (cs : List Char) :
    quotesClosed (cs ++ [c]) = quotesClosed cs ∧
      quotesClosed.inQuotes (cs ++ [c]) = quotesClosed.inQuotes cs := by
  -- A backslash takes the next character along, so the induction is on the length.
  induction hn : cs.length using Nat.strongRecOn generalizing cs with
  | ind n ih =>
    cases cs with
    | nil =>
      by_cases hback : c = '\\'
      · subst hback
        exact ⟨rfl, rfl⟩
      · simp [quotesClosed_cons hback, hc, quotesClosed.inQuotes]
    | cons d cs =>
      rw [List.length_cons] at hn
      obtain ⟨hout, hin⟩ := ih cs.length (by omega) cs rfl
      refine ⟨?_, by simp [quotesClosed.inQuotes, hout, hin]⟩
      by_cases hback : d = '\\'
      · subst hback
        cases cs with
        | nil => rfl
        | cons e cs =>
          rw [List.length_cons] at hn
          exact (ih cs.length (by omega) cs rfl).1
      · rw [List.cons_append, quotesClosed_cons hback, quotesClosed_cons hback, hout, hin]

theorem quotesClosed_stripEnd (body : List Char) :
    quotesClosed (stripEnd (body ++ ['\n'])) = quotesClosed body := by
  rcases stripEnd_feed body with ⟨-, hstrip⟩ | ⟨body', rfl, hstrip⟩
  · rw [hstrip]
  · rw [hstrip, (quotesClosed_snoc (by decide) body').1]

/-! ## Lines that spell a token -/

theorem Mode.step_name {m : Mode} (hm : m.IsRest) {c : Char} (hc : Text.isNameChar c = true) :
    m.step c = .bare := by
  have hne : ∀ d, Text.isNameChar d = false → c ≠ d := fun d hd =>
    ne_of_apply_ne Text.isNameChar (by rw [hc, hd]; decide)
  have hspace : isSeparator c = false := by
    simp [isSeparator, hne ' ', hne '\t', hne '\r', hne '\n', Text.isNameChar]
  have henter : enter c = (.bare, true) := by
    simp [enter, hne '\'', hne '"', hne '\\', Text.isNameChar]
  rcases hm with rfl | rfl <;> simp [step, hspace, henter]

theorem Mode.behind_name {m : Mode} (hm : m.IsRest) {p : List Char}
    (hp : ∀ c ∈ p, Text.isNameChar c = true) : (m.behind p).IsRest := by
  induction p generalizing m with
  | nil => exact hm
  | cons c p ih =>
    rw [behind_cons, step_name hm (hp c (by simp))]
    exact ih (Or.inr rfl) fun d hd => hp d (by simp [hd])

theorem behind_kind {kind : String} (h : kind ∈ terminals) (payload : List Char) :
    Mode.between.behind (kind.toList ++ ':' :: '\'' :: payload) =
      Mode.between.behind ('\'' :: payload) := by
  -- The kind opens no quotes, and from either mode it can end in the first quote opens them.
  have hkind := Mode.behind_name (Or.inl rfl) (Text.isNameChar_of_isName (isName_terminal h))
  simp only [Mode.behind_append, Mode.behind_cons]
  rcases hkind with hm | hm <;> rw [hm] <;> rfl

variable {body : List Char} {t : Token}

theorem SpellsToken.isRest (h : SpellsToken body t) : (Mode.between.behind body).IsRest := by
  obtain ⟨hkind, payload, rfl, htext⟩ := h
  rw [behind_kind hkind]
  exact isRest_of_unquoted htext

theorem SpellsToken.decodeLine (h : SpellsToken body t) :
    decodeLine body = .ok (some (.token t)) := by
  have hnumber : ¬ IsNumber body := by
    obtain ⟨-, payload, rfl, -⟩ := h
    exact fun hn => absurd (hn.2 ':' (by simp)) (by decide)
  unfold Wire.decodeLine
  rw [decodeChars_other hnumber, tokenOf?_eq_some_iff.mpr h]
  rfl

theorem SpellsToken.not_blank (h : SpellsToken body t) : isBlankLine (body ++ ['\n']) = false := by
  obtain ⟨hkind, payload, rfl, -⟩ := h
  have hname := isName_terminal hkind
  cases hk : t.kind.toList with
  | nil => simp [hk, Text.isName] at hname
  | cons c cs =>
    have hc := Text.isNameChar_of_isName hname c (by simp [hk])
    simp [isBlankLine, Text.isBlank_of_isNameChar hc]

/-- A line ends with a carriage return that a backslash makes part of the value. -/
def EndsEscaped (body : List Char) : Prop :=
  ∃ x, body = x ++ ['\r'] ∧ Mode.between.behind x = .escaped

theorem SpellsToken.of_return {x : List Char} (h : SpellsToken (x ++ ['\r']) t) :
    t.kind ∈ terminals ∧ ∃ payload, x = t.kind.toList ++ ':' :: '\'' :: payload ∧
      unquoteChars (('\'' :: payload) ++ ['\r']) = .ok t.text.toList := by
  obtain ⟨hkind, payload, hbody, htext⟩ := h
  refine ⟨hkind, ?_⟩
  rcases List.eq_nil_or_concat payload with rfl | ⟨payload', c, rfl⟩
  · have hlast := congrArg List.getLast? hbody
    simp at hlast
  · rw [List.concat_eq_append] at hbody htext
    have hsplit : x ++ ['\r'] = (t.kind.toList ++ ':' :: '\'' :: payload') ++ [c] := by
      simpa using hbody
    obtain ⟨rfl, hc⟩ := List.append_inj' hsplit rfl
    obtain rfl : '\r' = c := by simpa using hc
    exact ⟨payload', rfl, htext⟩

theorem SpellsToken.stripEnd (h : SpellsToken body t) (hend : ¬ EndsEscaped body) :
    SpellsToken (stripEnd (body ++ ['\n'])) t := by
  rcases stripEnd_feed body with ⟨-, hstrip⟩ | ⟨x, rfl, hstrip⟩
  · rwa [hstrip]
  · -- The carriage return goes with the line end, and the value is the same without it.
    have hx : (Mode.between.behind x).IsRest := by
      have hbody := h.isRest
      rw [Mode.behind_append] at hbody
      exact (Mode.of_step_return hbody).resolve_right fun hm => hend ⟨x, rfl, hm⟩
    obtain ⟨hkind, payload, rfl, htext⟩ := h.of_return
    rw [behind_kind hkind] at hx
    rw [hstrip]
    exact ⟨hkind, payload, rfl, unquoteChars_return hx ▸ htext⟩

theorem SpellsToken.of_endsEscaped (h : SpellsToken body t) (hend : EndsEscaped body) :
    Wire.decodeLine (Wire.stripEnd (body ++ ['\n'])) ≠ .ok (some (.token t)) := by
  obtain ⟨x, rfl, hx⟩ := hend
  obtain ⟨y, hy⟩ := exists_of_escaped hx
  obtain ⟨hkind, payload, hpayload, htext⟩ := h.of_return
  have hstrip : Wire.stripEnd (x ++ ['\r'] ++ ['\n']) = x := by simp [Wire.stripEnd]
  have hlast : t.text.toList.getLast? = some '\r' := by
    rw [hpayload, behind_kind hkind] at hx
    exact getLast?_of_escaped hx htext
  rw [hstrip]
  intro hdecode
  rcases decodeLine_cases x with hover | ⟨e, he, hread⟩
  · rw [decodeLine_overlong hover] at hdecode
    cases hdecode
  · obtain rfl : e = .token t := by simpa [hdecode] using hread.symm
    cases he with
    | token hspells =>
      have hrest := hspells.isRest
      rw [hx] at hrest
      rcases hrest with hm | hm <;> cases hm
    | invalid =>
      rw [String.toList_ofList, hy] at hlast
      simp at hlast

/-! ## Reading a line with others behind it -/

theorem read_line (h : SpellsToken body t) (hfeed : '\n' ∉ body) (rest : List Char) :
    (LineStream.ofText (String.ofList (body ++ '\n' :: rest))).read =
      (Wire.decodeLine (join (body ++ ['\n']) (feedLines rest)).2.1,
        ⟨(join (body ++ ['\n']) (feedLines rest)).2.2, .clean⟩) := by
  have hlines : feedLines (body ++ '\n' :: rest) = (body ++ ['\n']) :: feedLines rest := by
    have hplain : ∀ c ∈ body, endsLine false c = false := by
      intro c hc
      simpa [endsLine] using fun hn : c = '\n' => hfeed (hn ▸ hc)
    simpa using splits_feedLines.line hplain (.feed rest)
  have hdrop : ((body ++ ['\n']) :: feedLines rest).dropWhile isBlankLine =
      (body ++ ['\n']) :: feedLines rest :=
    List.dropWhile_cons_of_neg (by simp [h.not_blank])
  rw [LineStream.ofText, String.toList_ofList, hlines, read_join hdrop]

/-- Whatever stands behind a line, the line gives its token and nothing behind it is lost. -/
def ReadAlone (body : List Char) (t : Token) : Prop :=
  ∀ rest : List Char, (LineStream.ofText (String.ofList (body ++ '\n' :: rest))).read =
    (.ok (some (.token t)), .ofText (String.ofList rest))

theorem SpellsToken.readAlone (h : SpellsToken body t) (hfeed : '\n' ∉ body)
    (hclosed : quotesClosed body = true) (hend : ¬ EndsEscaped body) : ReadAlone body t := by
  intro rest
  have hstrip : quotesClosed (Wire.stripEnd (body ++ ['\n'])) = true := by
    rw [quotesClosed_stripEnd, hclosed]
  rw [read_line h hfeed, join_closed hstrip]
  dsimp only
  rw [(h.stripEnd hend).decodeLine, LineStream.ofText, String.toList_ofList]

theorem ReadAlone.closed (hread : ReadAlone body t) (h : SpellsToken body t)
    (hfeed : '\n' ∉ body) : quotesClosed body = true := by
  -- One character behind the line is enough: open quotes take it along.
  by_contra hopen
  rw [Bool.not_eq_true] at hopen
  have hfirst : quotesClosed (Wire.stripEnd (body ++ ['\n'])) = false := by
    rw [quotesClosed_stripEnd, hopen]
  have hsecond : quotesClosed (Wire.stripEnd (body ++ ['\n'] ++ ['x'])) = false := by
    rw [stripEnd_of_getLast? (by simp), (quotesClosed_snoc (by decide) _).1,
      (quotesClosed_snoc (by decide) _).1, hopen]
  have hjoin : join (body ++ ['\n']) (feedLines ['x']) = _ :=
    (join_more hfirst ['x'] []).trans (join_last hsecond)
  have hstream := congrArg (fun r => r.2.lines) (hread ['x'])
  rw [read_line h hfeed, hjoin] at hstream
  cases hstream

theorem ReadAlone.not_endsEscaped (hread : ReadAlone body t) (h : SpellsToken body t)
    (hfeed : '\n' ∉ body) : ¬ EndsEscaped body := by
  intro hend
  have hstrip : quotesClosed (Wire.stripEnd (body ++ ['\n'])) = true := by
    rw [quotesClosed_stripEnd, hread.closed h hfeed]
  have hevent := congrArg Prod.fst (hread [])
  rw [read_line h hfeed, join_closed hstrip] at hevent
  exact h.of_endsEscaped hend hevent

/-- A line that spells a token is read on its own just if its single quotes are closed and it does
not end with an escaped carriage return. Its single quotes are closed unless one of them stands
between double quotes. -/
theorem spelled_line_read_alone (h : SpellsToken body t) (hfeed : '\n' ∉ body) :
    (ReadAlone body t ↔ quotesClosed body = true ∧ ¬ EndsEscaped body) ∧
      (¬ SingleInDouble .between body → quotesClosed body = true) := by
  refine ⟨⟨fun hread => ?_, fun hbody => h.readAlone hfeed hbody.1 hbody.2⟩, ?_⟩
  · exact ⟨hread.closed h hfeed, hread.not_endsEscaped h hfeed⟩
  · exact quotesClosed_of_isRest h.isRest

/-- A value of four pieces, with a quote of each kind in it, and blanks behind. -/
def mixedLine : List Char := "ident:'a'\\''b'\"x\\\"y\" \r".toList

theorem spelled_line_read_alone_mixed :
    SpellsToken mixedLine ⟨"ident", "a'bx\"y"⟩ ∧ '\n' ∉ mixedLine ∧
      quotesClosed mixedLine = true ∧ ¬ EndsEscaped mixedLine ∧
      ReadAlone mixedLine ⟨"ident", "a'bx\"y"⟩ := by
  have hspells : SpellsToken mixedLine ⟨"ident", "a'bx\"y"⟩ :=
    tokenOf?_eq_some_iff.mp (by decide +kernel)
  have hfeed : '\n' ∉ mixedLine := by decide +kernel
  have hclosed : quotesClosed mixedLine = true := by decide +kernel
  have hend : ¬ EndsEscaped mixedLine := by
    rintro ⟨x, hx, hm⟩
    obtain rfl : x = mixedLine.dropLast := by rw [hx, List.dropLast_concat]
    revert hm
    decide +kernel
  exact ⟨hspells, hfeed, hclosed, hend,
    (spelled_line_read_alone hspells hfeed).1.mpr ⟨hclosed, hend⟩⟩

/-- A single quote between double quotes swallows the next line, and an escaped carriage return is
taken for a part of the line end. -/
theorem spelled_line_lost :
    SpellsToken "ident:''\"'\"".toList ⟨"ident", "'"⟩ ∧
      (LineStream.ofText "ident:''\"'\"\nnl:'x'\n").read =
        (.ok (some (.token ⟨"invalid", "ident:''\"'\"\nnl:'x'"⟩)), .ofText "") ∧
      SpellsToken "ident:'a'\\\r".toList ⟨"ident", "a\r"⟩ ∧
      (LineStream.ofText "ident:'a'\\\r\nnl:'x'\n").read =
        (.ok (some (.token ⟨"invalid", "ident:'a'\\"⟩)), .ofText "nl:'x'\n") := by
  refine ⟨tokenOf?_eq_some_iff.mp ?_, ?_, tokenOf?_eq_some_iff.mp ?_, ?_⟩ <;> decide +kernel

end ShiftReduce.Wire
