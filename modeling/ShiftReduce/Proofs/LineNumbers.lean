import ShiftReduce.Proofs.Lookahead
import ShiftReduce.Proofs.Tracing
import ShiftReduce.Proofs.WireParsing

/-! # The line of a token

The scanner counts lines, the marks carry the count into an input, the input gives it to its tokens,
and a token that is put back keeps it. At the end of all this a token has the line that its first
character has in the text, and so has an error at the token.
-/

namespace ShiftReduce

/-- The line behind the first `k` characters of a text. -/
def lineAt (cs : List Char) (k : Nat) : Int := 1 + (cs.take k).count '\n'

/-- The tokens of some spans, each with the number of characters in front of it, of which `k` lie in
front of all spans. -/
def offsets (k : Nat) : List Span → List (Token × Nat)
  | [] => []
  | s :: ss => (s.token?.map (·, k)).toList ++ offsets (k + s.text.length) ss

/-- The tokens of a text, each on the line where it begins, and the end behind them. -/
def placed (name : String) (cs : List Char) : List (Token × Location) :=
  (offsets 0 (spans cs)).map (fun x => (x.1, ⟨name, lineAt cs x.2⟩)) ++
    [(.eof, ⟨name, lineAt cs cs.length⟩)]

def Event.line? : Event → Option Int
  | .mark line => some line
  | .token _ => none

/-! ## Newlines in spans -/

variable {cs rest : List Char} {t : Token} {marked line : Int}

theorem Munched.newlines {s : Span} (h : Munched cs s) (line : Int) :
    match s.token? with
    | some t => t.lineAfter line = line + s.text.count '\n'
    | none => '\n' ∉ s.text := by
  have hplain : '\n' ∉ s.text → (∀ t ∈ s.token?, t.kind ≠ "nl") →
      match s.token? with
      | some t => t.lineAfter line = line + s.text.count '\n'
      | none => '\n' ∉ s.text := by
    intro htext hkind
    split
    · next t ht => simp [Token.lineAfter, hkind t ht, List.count_eq_zero_of_not_mem htext]
    · exact htext
  cases h with
  | lexeme k longest only hkind _ =>
    have hmem : s.text ∈ k.language := (only k).mpr rfl
    by_cases hk : k = .newline
    · subst hk
      obtain ⟨c, hc, htext⟩ := hmem
      obtain rfl := beq_iff_eq.mp hc
      obtain ⟨t, ht, hnl⟩ := Option.map_eq_some_iff.mp hkind
      simp [ht, htext, Token.lineAfter, hnl]
    · refine hplain (Lexeme.newline_not_mem hk hmem) fun t ht hnl => hk ?_
      rw [ht, Option.map_some, hnl] at hkind
      exact Lexeme.eq_of_terminal? rfl (by decide) hkind.symm
  | invalid none taken token =>
    refine hplain ?_ (by simp [token])
    rw [taken]
    unfold unclassified
    split
    · intro hmem
      exact absurd (List.mem_takeWhile_imp hmem) (by decide)
    · intro hmem
      -- A newline at the front would be a lexeme.
      cases cs with
      | nil => simp at hmem
      | cons c cs =>
        obtain rfl := List.mem_singleton.mp hmem
        exact none ['\n'] ⟨cs, rfl⟩ ⟨.newline, mem_oneOf_char.mpr rfl⟩

theorem scanToken_end (h : scanToken cs = none) :
    '\n' ∉ cs ∧ ∀ k, offsets k (spans cs) = [] := by
  fun_induction scanToken cs with
  | case1 => simp [spans, offsets]
  | case2 => cases h
  | case3 c cs hnone ih =>
    obtain ⟨hrest, hoffsets⟩ := ih h
    have hfirst := (munched_first c cs).newlines 0
    rw [hnone] at hfirst
    constructor
    · rw [← Span.first_text_rest c cs, List.mem_append, not_or]
      exact ⟨hfirst, hrest⟩
    · intro k
      simp [spans, offsets, hnone, hoffsets]

theorem scanToken_found (h : scanToken cs = some (t, rest)) :
    ∃ gap word, cs = gap ++ word ++ rest ∧ '\n' ∉ gap ∧
      (∀ line, t.lineAfter line = line + word.count '\n') ∧
      ∀ k, offsets k (spans cs) =
        (t, k + gap.length) :: offsets (k + gap.length + word.length) (spans rest) := by
  fun_induction scanToken cs with
  | case1 => cases h
  | case2 c cs u hu =>
    cases h
    refine ⟨[], (Span.first c cs).text, (Span.first_text_rest c cs).symm, by simp, ?_, ?_⟩
    · intro line
      have hfirst := (munched_first c cs).newlines line
      rwa [hu] at hfirst
    · intro k
      simp [spans, offsets, hu]
  | case3 c cs hnone ih =>
    obtain ⟨gap, word, hcs, hgap, hword, hoffsets⟩ := ih h
    have hfirst := (munched_first c cs).newlines 0
    rw [hnone] at hfirst
    refine ⟨(Span.first c cs).text ++ gap, word, ?_, ?_, hword, ?_⟩
    · rw [List.append_assoc, List.append_assoc, ← List.append_assoc gap, ← hcs,
        Span.first_text_rest]
    · rw [List.mem_append, not_or]
      exact ⟨hfirst, hgap⟩
    · intro k
      simp [spans, offsets, hnone, hoffsets, Nat.add_assoc]

/-! ## The events of a text -/

@[simp]
theorem located_markFor (name : String) (marked line : Int) (es : List Event) :
    located name marked (markFor marked line ++ es) = located name line es := by
  unfold markFor
  split
  · next h => rw [h, List.nil_append]
  · rfl

theorem lineAt_append (before after : List Char) :
    lineAt (before ++ after) before.length = 1 + before.count '\n' := by
  simp [lineAt]

/-- The marks put every token on the line where it begins. -/
theorem located_eventsFrom (name : String) (before : List Char)
    (hline : line = 1 + before.count '\n') :
    located name marked (eventsFrom marked line cs) =
      (offsets before.length (spans cs)).map (fun x => (x.1, ⟨name, lineAt (before ++ cs) x.2⟩)) ++
        [(.eof, ⟨name, lineAt (before ++ cs) (before ++ cs).length⟩)] := by
  fun_induction eventsFrom marked line cs generalizing before with
  | case1 marked line cs hscan =>
    obtain ⟨hnone, hoffsets⟩ := scanToken_end hscan
    have hmark := located_markFor name marked line []
    rw [List.append_nil] at hmark
    rw [hmark, hoffsets, located, lineAt, List.take_length, List.count_append,
      List.count_eq_zero_of_not_mem hnone, hline]
    rfl
  | case2 marked line cs t rest hscan ih =>
    obtain ⟨gap, word, hcs, hgap, hword, hoffsets⟩ := scanToken_found hscan
    have hsplit : before ++ cs = before ++ gap ++ word ++ rest := by simp [hcs]
    have hafter : t.lineAfter line = 1 + (before ++ gap ++ word).count '\n' := by
      rw [hword, hline]
      simp only [List.count_append, List.count_eq_zero_of_not_mem hgap]
      omega
    have hplace : lineAt (before ++ cs) (before.length + gap.length) = line := by
      rw [hsplit, List.append_assoc (before ++ gap), ← List.length_append, lineAt_append, hline]
      simp [List.count_eq_zero_of_not_mem hgap]
    have hrest := ih (before ++ gap ++ word) hafter
    rw [located_markFor, located, hrest, hoffsets, List.map_cons, hplace, ← hsplit]
    simp only [List.length_append, List.cons_append]

theorem located_events (name text : String) :
    located name 0 (events text) = placed name text.toList :=
  located_eventsFrom name [] rfl

theorem tokens_eventsFrom :
    (eventsFrom marked line cs).filterMap Event.token? = (spans cs).filterMap Span.token? := by
  have hmark : ∀ marked line, (markFor marked line).filterMap Event.token? = [] := by
    intro marked line
    unfold markFor
    split <;> rfl
  fun_induction eventsFrom marked line cs with
  | case1 marked line cs hscan => rw [hmark, tokens_of_scanToken, hscan]
  | case2 marked line cs t rest hscan ih =>
    rw [List.filterMap_append, hmark, tokens_of_scanToken, hscan, List.nil_append]
    dsimp only
    rw [← ih]
    rfl

theorem marks_eventsFrom (h : marked ≤ line) :
    (marked :: (eventsFrom marked line cs).filterMap Event.line?).Pairwise (· < ·) := by
  have hmark : ∀ {marked line : Int} {ls : List Int}, marked ≤ line →
      (line :: ls).Pairwise (· < ·) →
      (marked :: ((markFor marked line).filterMap Event.line? ++ ls)).Pairwise (· < ·) := by
    intro marked line ls hle hls
    unfold markFor
    split
    · next heq => rwa [← heq]
    · next hne =>
      refine List.pairwise_cons.mpr ⟨?_, hls⟩
      intro l hl
      rcases List.mem_cons.mp hl with rfl | hl
      · omega
      · have := (List.pairwise_cons.mp hls).1 l hl
        omega
  fun_induction eventsFrom marked line cs with
  | case1 marked line cs hscan =>
    have hend := hmark h (List.pairwise_singleton _ line)
    rwa [List.append_nil] at hend
  | case2 marked line cs t rest hscan ih =>
    have hafter : line ≤ t.lineAfter line := by
      unfold Token.lineAfter
      split <;> omega
    rw [List.filterMap_append]
    exact hmark h (ih hafter)

/-! ## Where the tokens begin -/

theorem spans_text (cs : List Char) : (spans cs).flatMap Span.text = cs := by
  fun_induction spans cs with
  | case1 => rfl
  | case2 c cs ih => rw [List.flatMap_cons, ih, Span.first_text_rest]

@[simp]
theorem offsets_tokens (k : Nat) (ss : List Span) :
    (offsets k ss).map Prod.fst = ss.filterMap Span.token? := by
  induction ss generalizing k with
  | nil => rfl
  | cons s ss ih =>
    rw [offsets, List.map_append, ih]
    cases hs : s.token? <;> simp [hs]

@[simp]
theorem placed_tokens (name : String) (cs : List Char) :
    (placed name cs).map Prod.fst = (spans cs).filterMap Span.token? ++ [.eof] := by
  rw [placed, List.map_append, List.map_map, ← offsets_tokens 0]
  rfl

theorem mem_offsets {k : Nat} {ss : List Span} {x : Token × Nat} :
    x ∈ offsets k ss ↔ ∃ before s after, ss = before ++ s :: after ∧ s.token? = some x.1 ∧
      x.2 = k + (before.flatMap Span.text).length := by
  induction ss generalizing k with
  | nil => simp [offsets]
  | cons s ss ih =>
    rw [offsets, List.mem_append, ih]
    constructor
    · rintro (hx | ⟨before, u, after, rfl, hu, hk⟩)
      · obtain ⟨t, ht, rfl⟩ : ∃ t, s.token? = some t ∧ (t, k) = x := by simpa using hx
        exact ⟨[], s, ss, rfl, ht, rfl⟩
      · refine ⟨s :: before, u, after, rfl, hu, ?_⟩
        rw [hk, List.flatMap_cons, List.length_append, Nat.add_assoc]
    · rintro ⟨before, u, after, hss, hu, hk⟩
      cases before with
      | nil =>
        obtain ⟨rfl, rfl⟩ := List.cons.inj hss
        refine Or.inl ?_
        obtain ⟨t, n⟩ := x
        obtain rfl : n = k := hk
        simp [hu]
      | cons b before =>
        obtain ⟨rfl, rfl⟩ := List.cons.inj hss
        refine Or.inr ⟨before, u, after, rfl, hu, ?_⟩
        rw [hk, List.flatMap_cons, List.length_append, Nat.add_assoc]

/-! ## What a stream answers -/

namespace Stream

variable {s : Stream} {ts xs : List (Token × Location)} {last : Location}

theorem answers_of_tokens (h : s.tokens = .ok ts) (k : Nat) :
    s.answers (ts.length + k) = ts.map (fun x => (.ok (some x.1), x.2)) ++
      List.replicate k (.ok none, (ts.getLast?.map Prod.snd).getD s.location) := by
  induction ts generalizing s with
  | nil =>
    rw [List.length_nil, Nat.zero_add]
    induction k with
    | zero => rfl
    | succ k ih => rw [answers, next_of_nil h, ih, List.replicate_succ]; rfl
  | cons x xs ih =>
    obtain ⟨r, hn, hr, hl⟩ := next_of_cons h
    rw [List.length_cons, Nat.add_right_comm, answers, hn, ih hr, hl, List.map_cons]
    cases xs <;> rfl

/-- A stream has the last of some tokens left. Once it has none, it stands where they ended. -/
structure Within (ts : List (Token × Location)) (last : Location) (s : Stream)
    (xs : List (Token × Location)) : Prop where
  tokens : s.tokens = .ok xs
  suffix : xs <:+ ts
  place : xs = [] → s.location = last

theorem Within.next (h : Within ts last s xs) (hlast : ∀ x ∈ ts.getLast?, x.2 = last) :
    Within ts last s.next.2 xs.tail := by
  cases xs with
  | nil =>
    rw [next_of_nil h.tokens]
    exact h
  | cons x xs =>
    obtain ⟨r, hn, hr, hl⟩ := next_of_cons h.tokens
    rw [hn]
    refine ⟨hr, (List.suffix_cons x xs).trans h.suffix, ?_⟩
    rintro rfl
    obtain ⟨before, rfl⟩ := h.suffix
    exact hl.trans (hlast x (by simp))

theorem Within.peek (h : Within ts last s xs) : Within ts last s.peek.2 xs ∧
    s.peek.1 = .ok (xs.head?.map Prod.fst) ∧
    s.peek.2.location = (xs.head?.map Prod.snd).getD last := by
  cases xs with
  | nil =>
    rw [peek_of_nil h.tokens]
    exact ⟨h, rfl, h.place rfl⟩
  | cons x xs =>
    obtain ⟨r, hp, hr, hl, -⟩ := peek_of_cons h.tokens
    rw [hp]
    exact ⟨⟨hr, h.suffix, by simp⟩, rfl, hl⟩

end Stream

/-! ## Where an error is -/

/-- An error is about the first of the tokens left and on its line, or else on the last line. -/
structure SyntaxError.At (e : SyntaxError) (xs : List (Token × Location)) (last : Location) :
    Prop where
  kind : e.kind = xs.head?.map fun x => x.1.kind
  text : e.text = xs.head?.map fun x => x.1.text
  place : (⟨e.file, e.line⟩ : Location) = (xs.head?.map Prod.snd).getD last

namespace Machine

variable {V : Type} {m : Machine V} {c d : Config V} {ts : List (Token × Location)}
  {last : Location}

theorem after_within (hlast : ∀ x ∈ ts.getLast?, x.2 = last)
    (h : ∃ xs, Stream.Within ts last c.stream xs) (n : Nat) :
    ∃ xs, Stream.Within ts last (m.after n c).stream xs := by
  refine after_invariant (I := fun c => ∃ xs, Stream.Within ts last c.stream xs)
    (P := fun _ => True) ?_ h fun _ _ => trivial
  rintro c ⟨xs, hxs⟩ -
  have hpeek := hxs.peek.1
  rw [step_stream]
  split
  · exact ⟨xs, hpeek⟩
  · exact ⟨xs.tail, hpeek.next hlast⟩

theorem syntaxError_at {s : Stream} {xs : List (Token × Location)} (state : Option Int)
    (hl : s.location = (xs.head?.map Prod.snd).getD last) :
    (m.syntaxError { c with stream := s } state (xs.head?.map Prod.fst)).At xs last := by
  refine ⟨?_, ?_, hl⟩
  · cases xs <;> rfl
  · cases xs <;> rfl

theorem run_error_at (hlast : ∀ x ∈ ts.getLast?, x.2 = last)
    (h : ∃ xs, Stream.Within ts last c.stream xs) (hrep : c.reports = [])
    (hacc : c.accepted = false) {fuel : Nat} {r : Except Failure (Outcome V)}
    (hrun : m.run fuel c = some (r, d)) {e : SyntaxError} (he : e ∈ d.reports) :
    ∃ xs, Stream.Within ts last d.stream xs ∧ e.At xs last := by
  obtain ⟨n, hgo, rfl, -⟩ := run_last hrun
  obtain ⟨hnone, -⟩ := after_silent hrep hacc hgo
  obtain ⟨xs, hxs⟩ := after_within (m := m) hlast h n
  have ht := step_tells m (m.after n c)
  rw [← after_succ] at ht
  generalize (m.step (m.after n c)).1 = v at ht
  cases ht with
  | nothing _ hr _ =>
    rw [hr, hnone] at he
    cases he
  | accept hr _ =>
    rw [hr, hnone] at he
    cases he
  | @reject look s e' hp hs heq hr _ _ =>
    rw [hr, hnone, List.nil_append, List.mem_singleton] at he
    obtain ⟨hnow, hlook, hplace⟩ := hxs.peek
    rw [hp] at hnow hlook hplace
    obtain rfl := Except.ok.inj hlook
    rw [hs, he, heq]
    exact ⟨xs, hnow, syntaxError_at _ hplace⟩

theorem parse_error_at (hlast : ∀ x ∈ ts.getLast?, x.2 = last)
    (h : ∃ xs, Stream.Within ts last c.stream xs) (hrep : c.reports = [])
    (hacc : c.accepted = false) {fuel : Nat} {r : Except Failure (Outcome V)}
    (hparse : m.parse fuel c = some (r, d)) :
    d.reports = reported r ∧ ∀ e ∈ d.reports,
      ∃ xs, Stream.Within ts last d.stream xs ∧ e.At xs last := by
  unfold parse at hparse
  split at hparse
  · obtain ⟨rfl, rfl⟩ := Prod.mk.inj (Option.some.inj hparse)
    simp [hrep, reported]
  · exact ⟨run_reports hrep hacc hparse, fun e => run_error_at hlast h hrep hacc hparse⟩

end Machine

theorem tokens_text (name text : String) :
    (Stream.ofInputs [Input.ofFeed name (.text (.memory text) .start (.ofText ""))]).tokens =
      .ok (placed name text.toList) := by
  rw [← located_events]
  exact Stream.tokens_single (Input.supply_text name text .start (.ofText ""))

/-- Every token of a text comes with the line where it begins, and the end with the line where the
text ends. Of the marks that bring this about, each is beyond the one before it. An error, whatever
the machine, has the line of the token that it is about. -/
theorem tokens_on_their_lines (text : String) {name : String} (hname : name ≠ "") :
    ∃ i, Input.text (some name) none (some text) = .ok i ∧
      (∀ k, (Stream.ofInputs [i]).answers ((placed name text.toList).length + k) =
        (placed name text.toList).map (fun x => (.ok (some x.1), x.2)) ++
          List.replicate k (.ok none, ⟨name, lineAt text.toList text.toList.length⟩)) ∧
      (offsets 0 (spans text.toList)).map Prod.fst = tokenize text ∧
      (∀ x ∈ offsets 0 (spans text.toList), ∃ before s after,
        spans text.toList = before ++ s :: after ∧ s.token? = some x.1 ∧
          text.toList = before.flatMap Span.text ++ s.text ++ after.flatMap Span.text ∧
          x.2 = (before.flatMap Span.text).length) ∧
      ((events text).filterMap Event.line?).Pairwise (· < ·) ∧
      (events text).filterMap Event.token? = tokenize text ∧
      ∀ {V : Type} (m : Machine V) (values : List (Symbol V)) (states : List Int) fuel r d,
        m.parse fuel (m.start (.ofInputs [i]) values states) = some (r, d) →
        d.reports = Machine.reported r ∧ ∀ e ∈ d.reports, e.file = name ∧
          ∃ xs, d.stream.tokens = .ok xs ∧ xs <:+ placed name text.toList ∧
            e.At xs ⟨name, lineAt text.toList text.toList.length⟩ := by
  refine ⟨_, rfl, ?_⟩
  dsimp only [Option.map_none]
  rw [Input.nameFrom_of_ne hname]
  have htokens := tokens_text name text
  have hlast : (placed name text.toList).getLast? =
      some (.eof, ⟨name, lineAt text.toList text.toList.length⟩) := by
    simp [placed]
  refine ⟨?_, offsets_tokens _ _, ?_, ?_, tokens_eventsFrom, ?_⟩
  · intro k
    rw [Stream.answers_of_tokens htokens, hlast]
    rfl
  · intro x hx
    obtain ⟨before, s, after, hs, ht, hk⟩ := mem_offsets.mp hx
    refine ⟨before, s, after, hs, ht, ?_, by rw [hk, Nat.zero_add]⟩
    have htext := spans_text text.toList
    rw [hs] at htext
    simpa using htext.symm
  · have hmarks : ((0 : Int) :: (events text).filterMap Event.line?).Pairwise (· < ·) :=
      marks_eventsFrom (by decide)
    exact (List.pairwise_cons.mp hmarks).2
  · intro V m values states fuel r d hparse
    have hwithin : Stream.Within (placed name text.toList)
        ⟨name, lineAt text.toList text.toList.length⟩ _ (placed name text.toList) :=
      ⟨htokens, List.suffix_refl _, by simp [placed]⟩
    obtain ⟨hreports, hat⟩ := Machine.parse_error_at (by simp [hlast]) ⟨_, hwithin⟩ rfl rfl hparse
    refine ⟨hreports, fun e he => ?_⟩
    obtain ⟨xs, hxs, hplace⟩ := hat e he
    refine ⟨?_, xs, hxs.tokens, hxs.suffix, hplace⟩
    have hfile := congrArg Location.name hplace.place
    cases xs with
    | nil => exact hfile
    | cons x xs =>
      have hx : x ∈ located name 0 (events text) := by
        rw [located_events]
        exact hxs.suffix.subset (by simp)
      exact hfile.trans (name_of_mem_located hx)

/-- A name, a line that is a comment, and a string with an escaped newline. -/
def threeLines : String := "x\n# two\n '\\n'"

theorem tokens_on_their_lines_threeLines :
    ∃ i, Input.text (some "in") none (some threeLines) = .ok i ∧
      (Stream.ofInputs [i]).answers 6 =
        [(.ok (some ⟨"ident", "x"⟩), ⟨"in", 1⟩), (.ok (some ⟨"nl", "\n"⟩), ⟨"in", 1⟩),
          (.ok (some ⟨"nl", "\n"⟩), ⟨"in", 2⟩), (.ok (some ⟨"string_s", "'\\n'"⟩), ⟨"in", 3⟩),
          (.ok (some .eof), ⟨"in", 3⟩), (.ok none, ⟨"in", 3⟩)] ∧
      ∃ r d e, (Nesting.machine false).parse 4 ((Nesting.machine false).start (.ofInputs [i])) =
          some (r, d) ∧
        d.reports = [e] ∧ e.file = "in" ∧ e.line = 3 ∧ e.kind = some "string_s" := by
  have hname : "in" ≠ "" := by decide
  obtain ⟨i, hi, hanswers, -, -, -, -, herror⟩ := tokens_on_their_lines threeLines hname
  have hplaced : placed "in" threeLines.toList =
      [(⟨"ident", "x"⟩, ⟨"in", 1⟩), (⟨"nl", "\n"⟩, ⟨"in", 1⟩), (⟨"nl", "\n"⟩, ⟨"in", 2⟩),
        (⟨"string_s", "'\\n'"⟩, ⟨"in", 3⟩), (.eof, ⟨"in", 3⟩)] := by decide +kernel
  have hend : lineAt threeLines.toList threeLines.toList.length = 3 := by decide +kernel
  have hreports : ((Nesting.machine false).parse 4
      ((Nesting.machine false).start (.ofInputs [i]))).map (fun x => x.2.reports) =
      some [⟨"in", 3, some "string_s", some "'\\n'", ["ident", "integer"]⟩] := by
    obtain rfl := Except.ok.inj hi
    decide +kernel
  obtain ⟨⟨r, d⟩, hparse, hd⟩ := Option.map_eq_some_iff.mp hreports
  obtain ⟨-, hat⟩ := herror (Nesting.machine false) [] [] 4 r d hparse
  refine ⟨i, hi, ?_, r, d, _, hparse, hd, ?_, rfl, rfl⟩
  · have h := hanswers 1
    rw [hplaced, hend] at h
    exact h
  · exact (hat _ (by rw [hd]; simp)).1

end ShiftReduce
