import ShiftReduce.Proofs.TextEvents

/-! # The text of a token is scanned as the token

The text of a token is its normal form: scanned alone it gives the token again. So do the texts of
all tokens of a text, when they are written one behind the other with blanks between them.
-/

namespace ShiftReduce

open scoped Computability

variable {q : Char} {cs w u : List Char} {k : Lexeme} {t : Token}

/-! ## Literals -/

namespace Quoted

theorem decode_hex {h l c : Char} (hc : hexPair? h l = some c) (cs : List Char) :
    decode ('\\' :: 'x' :: h :: l :: cs) = c :: decode cs := by
  rw [decode, hc]

theorem decode_plain {c : Char} (hc : c ≠ '\\') (cs : List Char) :
    decode (c :: cs) = c :: decode cs := by
  rw [decode]
  · rintro h l ds rfl
    exact absurd rfl hc
  · rintro d ds rfl
    exact absurd rfl hc

theorem hex_two {n : Nat} (h : n < 128) :
    Text.hex 2 n = [Nat.digitChar (n / 16), Nat.digitChar (n % 16)] ∧
      hexPair? (Nat.digitChar (n / 16)) (Nat.digitChar (n % 16)) = some (Char.ofNat n) := by
  revert n
  decide

theorem decode_encodeChar (hq : isQuote q = true) (c : Char) (cs : List Char) :
    decode (encodeChar [q] c ++ cs) = c :: decode cs := by
  unfold encodeChar
  split
  · next h =>
    obtain rfl : q = c := by simpa using h
    rcases quote_cases hq with rfl | rfl <;> rfl
  split
  · next h => rw [h]; rfl
  split
  · next h => rw [h]; rfl
  split
  · next h => rw [h]; rfl
  split
  · next h => rw [h]; rfl
  split
  · next h =>
    obtain ⟨hhex, hpair⟩ := hex_two (n := c.toNat) (by omega)
    rw [hhex, List.cons_append, List.cons_append, List.cons_append, List.cons_append,
      decode_hex hpair, Char.ofNat_toNat]
    rfl
  · next h _ _ _ _ => exact decode_plain h cs

theorem decode_encoded (hq : isQuote q = true) (content : List Char) :
    decode (content.flatMap (encodeChar [q])) = content := by
  induction content with
  | nil => rfl
  | cons c cs ih => rw [List.flatMap_cons, decode_encodeChar hq, ih]

theorem digitChar_plain (hq : isQuote q = true) {n : Nat} (h : n < 16) :
    [Nat.digitChar n] ∈ stringItem q := by
  have hplain : ∀ n < 16, Nat.digitChar n ≠ '"' ∧ Nat.digitChar n ≠ '\'' ∧
      Nat.digitChar n ≠ '\\' ∧ Nat.digitChar n ≠ '\n' := by
    decide
  obtain ⟨hdouble, hsingle, hslash, hline⟩ := hplain n h
  refine mem_stringItem.mpr (Or.inr ⟨_, ⟨?_, hslash, hline⟩, rfl⟩)
  rcases quote_cases hq with rfl | rfl <;> assumption

theorem encodeChar_mem (hq : isQuote q = true) (c : Char) : encodeChar [q] c ∈ (stringItem q)∗ := by
  have hitem : stringItem q ≤ (stringItem q)∗ := le_kstar
  have hslash : ∀ d, d ≠ '\n' → ['\\', d] ∈ stringItem q :=
    fun d hd => mem_stringItem.mpr (Or.inl ⟨d, hd, rfl⟩)
  unfold encodeChar
  split
  · next h =>
    obtain rfl : q = c := by simpa using h
    refine hitem (hslash q ?_)
    rcases quote_cases hq with rfl | rfl <;> decide
  split
  · exact hitem (hslash '\\' (by decide))
  split
  · exact hitem (hslash 'n' (by decide))
  split
  · exact hitem (hslash 't' (by decide))
  split
  · exact hitem (hslash 'r' (by decide))
  split
  · next h =>
    obtain ⟨hhex, -⟩ := hex_two (n := c.toNat) (by omega)
    refine Language.mem_kstar.mpr
      ⟨[['\\', 'x'], [Nat.digitChar (c.toNat / 16)], [Nat.digitChar (c.toNat % 16)]], ?_, ?_⟩
    · simp [hhex]
    · intro w hw
      simp only [List.mem_cons, List.not_mem_nil, or_false] at hw
      rcases hw with rfl | rfl | rfl
      · exact hslash 'x' (by decide)
      · exact digitChar_plain hq (by omega)
      · exact digitChar_plain hq (by omega)
  · next hq hslash hline _ _ _ =>
    refine hitem (mem_stringItem.mpr (Or.inr ⟨c, ⟨?_, hslash, hline⟩, rfl⟩))
    rintro rfl
    exact hq rfl

theorem encoded_mem (hq : isQuote q = true) (content : List Char) :
    content.flatMap (encodeChar [q]) ∈ (stringItem q)∗ := by
  induction content with
  | nil => exact Language.nil_mem_kstar _
  | cons c cs ih =>
    rw [List.flatMap_cons, ← kstar_mul_kstar]
    exact Language.append_mem_mul (encodeChar_mem hq c) ih

end Quoted

/-! ## One token -/

/-- A token is scanned from its text wherever no word goes on behind it. -/
def Token.Scans (t : Token) : Prop :=
  ∀ u : List Char, (∀ c ∈ u.head?, Lexeme.isWordChar c = false) →
    scanToken (t.text.toList ++ u) = some (t, u)

theorem scanToken_of_first {c : Char} (h : (Span.first c cs).token? = some t) :
    scanToken (c :: cs) = some (t, (Span.first c cs).rest) := by
  rw [scanToken, h]

@[simp]
theorem scanToken_space (cs : List Char) : scanToken (' ' :: cs) = scanToken cs := by
  have hspace : Span.first ' ' cs = Span.run .blank Span.isSpace [' '] cs := rfl
  have hblank : ∀ {c : Char} {ds}, Span.isSpace c = true →
      Span.first c ds = Span.run .blank Span.isSpace [c] ds := by
    intro c ds hc
    exact if_pos hc
  rw [scanToken, hspace]
  change scanToken (cs.dropWhile Span.isSpace) = scanToken cs
  cases cs with
  | nil => rfl
  | cons c cs =>
    by_cases hc : Span.isSpace c = true
    · rw [List.dropWhile_cons_of_pos hc, scanToken, hblank hc]
      rfl
    · rw [List.dropWhile_cons_of_neg hc]

theorem first_quote (hq : Quoted.isQuote q = true) (cs : List Char) :
    Span.first q cs =
      match Span.closeQuote? q cs with
      | some (body, rest) => ⟨.string q, q :: body ++ [q], rest⟩
      | none => Span.run .invalid Span.notNewline [q] cs := by
  rcases Quoted.quote_cases hq with rfl | rfl <;> rfl

/-- The token of a literal that is written in its canonical form. -/
def literal (q : Char) (content : List Char) : Token :=
  ⟨if q = '"' then "string_d" else "string_s", String.ofList (Quoted.encode [q] content)⟩

theorem scanToken_closed (hq : Quoted.isQuote q = true) {body : List Char}
    (h : Span.closeQuote? q cs = some (body, u)) :
    scanToken (q :: cs) = some (literal q (Quoted.decode body), u) := by
  have hfirst := first_quote hq cs
  rw [h] at hfirst
  have htoken : (Span.first q cs).token? = some (literal q (Quoted.decode body)) := by
    rw [hfirst]
    simp [Span.token?, literal]
  rw [scanToken_of_first htoken, hfirst]

theorem scans_literal (hq : Quoted.isQuote q = true) (content : List Char) :
    (literal q content).Scans := by
  intro u _
  have hclose := closeQuote?_of_items hq (Quoted.encoded_mem hq content) u
  have hscan := scanToken_closed hq hclose
  rw [Quoted.decode_encoded hq] at hscan
  rw [← hscan]
  simp [literal, Quoted.encode]

/-! ## Words -/

theorem Longest.eq {l : Language Char} {v : List Char} (hw : Longest l cs w)
    (hv : Longest l cs v) : w = v := by
  have hle := hv.longest w hw.front hw.mem
  have hge := hw.longest v hv.front hv.mem
  exact (List.prefix_of_prefix_length_le hw.front hv.front hle).eq_of_length (by omega)

theorem Lexeme.isWord_of_leading {j : Lexeme} (h : j.leading = k.leading) : j.isWord = k.isWord := by
  cases j <;> cases k <;> first | rfl | cases h

theorem longest_lexeme (hw : w ∈ k.language)
    (hk : k.isWord = true ∨ k = .newline ∨ k = .punctuation)
    (hu : ∀ c ∈ u.head?, Lexeme.isWordChar c = false) : Longest lexemes (w ++ u) w where
  front := ⟨u, rfl⟩
  mem := ⟨k, hw⟩
  longest := by
    rintro v hv ⟨j, hj⟩
    obtain ⟨c, ds, rfl, -⟩ := Lexeme.starts_of_mem hw
    have hleading : j.leading = k.leading :=
      Option.some.inj ((ofStart?_of_front hv hj).symm.trans (Lexeme.ofStart?_of_mem hw))
    rcases hk with hword | hk
    · -- A longer word would hold the first character of `u`, which is of no word.
      by_contra hlong
      obtain ⟨z, rfl⟩ : c :: ds <+: v :=
        List.prefix_of_prefix_length_le ⟨u, rfl⟩ hv (by omega)
      cases z with
      | nil => simp at hlong
      | cons d z =>
        have hd : d ∈ u.head? := by
          obtain ⟨r, hr⟩ := hv
          rw [List.append_assoc, List.append_cancel_left_eq] at hr
          rw [← hr]
          rfl
        have hchar : Lexeme.isWordChar d = true :=
          Lexeme.isWordChar_of_mem ((Lexeme.isWord_of_leading hleading).trans hword) hj d (by simp)
        rw [hu d hd] at hchar
        cases hchar
    · obtain rfl : j = k := Lexeme.eq_of_leading hleading (by rcases hk with rfl | rfl <;> decide)
      rcases hk with rfl | rfl
      · obtain ⟨d, -, rfl⟩ := hj
        simp
      · obtain ⟨d, -, rfl⟩ := hj
        simp

theorem scanToken_lexeme {kind : String} (hw : w ∈ k.language) (hkind : k.terminal? w = some kind)
    (hk : k.isString = false) (hu : ∀ c ∈ u.head?, Lexeme.isWordChar c = false) :
    scanToken (w ++ u) = some (⟨kind, String.ofList w⟩, u) := by
  have hlongest : Longest lexemes (w ++ u) w := by
    refine longest_lexeme hw ?_ hu
    cases k with
    | blank | comment => cases hkind
    | newline => exact Or.inr (Or.inl rfl)
    | punctuation => exact Or.inr (Or.inr rfl)
    | real | integer | name => exact Or.inl rfl
    | doubleQuoted | singleQuoted => cases hk
  obtain ⟨c, ds, rfl, -⟩ := Lexeme.starts_of_mem hw
  have hrest := Span.first_text_rest c (ds ++ u)
  rw [List.cons_append] at hlongest ⊢
  cases munched_first c (ds ++ u) with
  | lexeme j longest only hterminal htext =>
    have hsame := longest.eq hlongest
    rw [hsame] at only hterminal htext hrest
    obtain rfl := (only k).mp hw
    rw [hkind] at hterminal
    obtain ⟨t, ht, rfl⟩ := Option.map_eq_some_iff.mp hterminal
    have htoken := htext t ht hk
    rw [scanToken_of_first ht, ← htoken]
    rw [← List.cons_append, List.append_cancel_left_eq] at hrest
    rw [hrest]
  | invalid none _ _ => exact absurd hlongest.mem (none _ hlongest.front)

/-! ## What is no lexeme -/

section line

variable (hu : ∀ c ∈ u.head?, c = '\n')
include hu

theorem takeWhile_line (cs : List Char) :
    (cs.takeWhile Span.notNewline ++ u).takeWhile Span.notNewline =
      cs.takeWhile Span.notNewline := by
  rw [List.takeWhile_append_of_pos fun c hc => List.mem_takeWhile_imp hc]
  cases u with
  | nil => simp
  | cons c u => simp [hu c rfl, Span.notNewline]

theorem dropWhile_line (cs : List Char) :
    (cs.takeWhile Span.notNewline ++ u).dropWhile Span.notNewline = u := by
  rw [List.dropWhile_append_of_pos fun c hc => List.mem_takeWhile_imp hc]
  cases u with
  | nil => rfl
  | cons c u => simp [hu c rfl, Span.notNewline]

theorem closeQuote?_line (hq : Quoted.isQuote q = true) (h : Span.closeQuote? q cs = none) :
    Span.closeQuote? q (cs.takeWhile Span.notNewline ++ u) = none := by
  by_contra hsome
  obtain ⟨⟨body, r⟩, hclose⟩ := Option.ne_none_iff_exists'.mp hsome
  have hitems := items_of_closeQuote? hclose
  have hmem : q :: body ++ [q] ∈ quotedBy q := mem_quotedBy.mpr ⟨body, rfl, hitems⟩
  have hnone : '\n' ∉ q :: (body ++ [q]) := by
    refine Lexeme.newline_not_mem_quotedBy ?_ hmem
    rcases Quoted.quote_cases hq with rfl | rfl <;> decide
  have hline : ∀ c ∈ body ++ [q], Span.notNewline c = true := by
    intro c hc
    refine bne_iff_ne.mpr ?_
    rintro rfl
    exact hnone (List.mem_cons_of_mem _ hc)
  -- So the closing quote lies on the first line, and it is there in `cs` as well.
  have hcut : cs.takeWhile Span.notNewline = body ++ [q] ++ r.takeWhile Span.notNewline := by
    rw [← takeWhile_line hu cs, ← Span.closeQuote?_eq hclose, List.append_cons,
      List.takeWhile_append_of_pos hline]
  have hcs : cs = body ++ q :: (r.takeWhile Span.notNewline ++ cs.dropWhile Span.notNewline) := by
    conv_lhs => rw [← List.takeWhile_append_dropWhile (p := Span.notNewline) (l := cs), hcut]
    simp
  rw [hcs, closeQuote?_of_items hq hitems] at h
  cases h

theorem scanToken_unclosed (hq : Quoted.isQuote q = true) (h : Span.closeQuote? q cs = none) :
    scanToken (q :: cs.takeWhile Span.notNewline ++ u) =
      some (⟨"invalid", String.ofList (q :: cs.takeWhile Span.notNewline)⟩, u) := by
  have hfirst := first_quote hq (cs.takeWhile Span.notNewline ++ u)
  rw [closeQuote?_line hu hq h] at hfirst
  simp only [Span.run, takeWhile_line hu, dropWhile_line hu] at hfirst
  have htoken : (Span.first q (cs.takeWhile Span.notNewline ++ u)).token? =
      some ⟨"invalid", String.ofList (q :: cs.takeWhile Span.notNewline)⟩ := by
    rw [hfirst]
    rfl
  rw [List.cons_append, scanToken_of_first htoken, hfirst]

end line

theorem first_invalid {c : Char} (hq : Quoted.isQuote c = false)
    (hnone : ∀ k : Lexeme, [c] ∉ k.language) (cs : List Char) :
    Span.first c cs = ⟨.invalid, [c], cs⟩ := by
  have hblank : ¬ Span.isSpace c = true := by
    intro hc
    refine hnone .blank ?_
    rw [Lexeme.language_blank]
    exact mem_repeated_oneOf.mpr (by simp [hc])
  have hcomment : c ≠ '#' := by
    rintro rfl
    exact hnone .comment (mem_oneOf_mul_star.mpr ⟨_, [], rfl, rfl, by simp⟩)
  have hnewline : c ≠ '\n' := by
    rintro rfl
    exact hnone .newline (mem_oneOf_char.mpr rfl)
  have hdigit : ¬ Text.isScanned c = true :=
    fun hc => hnone .integer (mem_digits.mpr (by simp [hc]))
  have hname : ¬ Text.isNameStart c = true := by
    intro hc
    exact hnone .name (mem_name.mpr (by simp [Text.isName, hc]))
  have hpunctuation : Span.punctuation? c = none := by
    by_contra hc
    refine hnone .punctuation ?_
    rw [Lexeme.language_punctuation]
    exact ⟨c, Option.isSome_iff_ne_none.mpr hc, rfl⟩
  unfold Span.first
  rw [if_neg hblank, if_neg hcomment, if_neg hnewline, if_neg hdigit, if_neg hname,
    if_neg (by simp [hq]), hpunctuation]

/-! ## All tokens -/

theorem isString_of_front {c : Char} (hq : Quoted.isQuote c = false) (hw : w ∈ k.language)
    (hfront : w <+: c :: cs) : k.isString = false := by
  obtain ⟨d, ds, rfl, hstart⟩ := Lexeme.starts_of_mem hw
  obtain ⟨rfl, -⟩ := List.cons_prefix_cons.mp hfront
  cases k with
  | doubleQuoted => simp [Quoted.isQuote, beq_iff_eq.mp hstart] at hq
  | singleQuoted => simp [Quoted.isQuote, beq_iff_eq.mp hstart] at hq
  | _ => rfl

theorem scans_unquoted {c : Char} (hq : Quoted.isQuote c = false)
    (ht : (Span.first c cs).token? = some t) : t.Scans := by
  intro u hu
  cases munched_first c cs with
  | lexeme k longest only hkind htext =>
    have hmem : (Span.first c cs).text ∈ k.language := (only k).mpr rfl
    have hstring := isString_of_front hq hmem longest.front
    have htoken : t = ⟨t.kind, String.ofList (Span.first c cs).text⟩ := by
      rw [← htext t ht hstring]
    rw [ht] at hkind
    rw [htoken, String.toList_ofList]
    exact scanToken_lexeme hmem hkind.symm hstring hu
  | invalid none taken token =>
    have hone : (Span.first c cs).text = [c] := by simp [taken, unclassified, hq]
    have hnone : ∀ k : Lexeme, [c] ∉ k.language := fun k hk => none [c] ⟨cs, rfl⟩ ⟨k, hk⟩
    have hfirst := first_invalid hq hnone u
    rw [ht, hone] at token
    cases token
    have htoken : (Span.first c u).token? = some ⟨"invalid", String.ofList [c]⟩ := by
      rw [hfirst]
      rfl
    rw [String.toList_ofList, List.singleton_append, scanToken_of_first htoken, hfirst]

/-- An unclosed string is not scanned from its text just anywhere: it needs the end of the line, and
it stood there. -/
theorem scanToken_text {rest : List Char} (h : scanToken cs = some (t, rest)) :
    t.Scans ∨ (∀ c ∈ rest.head?, c = '\n') ∧ ∀ u : List Char, (∀ c ∈ u.head?, c = '\n') →
      scanToken (t.text.toList ++ u) = some (t, u) := by
  fun_induction scanToken cs with
  | case1 => cases h
  | case3 c cs _ ih => exact ih h
  | case2 c cs t' ht =>
    cases h
    cases hq : Quoted.isQuote c with
    | false => exact Or.inl (scans_unquoted hq ht)
    | true =>
      cases hclose : Span.closeQuote? c cs with
      | some found =>
        rw [first_quote hq, hclose] at ht
        obtain rfl : literal c (Quoted.decode found.1) = t := by
          simpa [Span.token?, literal] using ht
        exact Or.inl (scans_literal hq _)
      | none =>
        rw [first_quote hq, hclose] at ht ⊢
        cases ht
        refine Or.inr ⟨?_, fun u hu => ?_⟩
        · intro d hd
          have hnot := List.head?_dropWhile_not Span.notNewline cs
          change (cs.dropWhile Span.notNewline).head? = some d at hd
          rw [hd] at hnot
          simpa [Span.notNewline] using hnot
        · simpa [Span.run] using scanToken_unclosed hu hq hclose

theorem text_of_newline {rest : List Char} (h : scanToken cs = some (t, rest))
    (ht : t.kind = "nl") : t.text = "\n" := by
  fun_induction scanToken cs with
  | case1 => cases h
  | case3 c cs _ ih => exact ih h
  | case2 c cs t' hfirst =>
    cases h
    cases munched_first c cs with
    | lexeme k _ only hkind htext =>
      rw [hfirst, Option.map_some, ht] at hkind
      obtain rfl : k = .newline := Lexeme.eq_of_terminal? rfl (by decide) hkind.symm
      have hmem : (Span.first c cs).text ∈ Lexeme.newline.language := (only .newline).mpr rfl
      rw [htext t hfirst rfl, mem_oneOf_char.mp hmem]
    | invalid _ _ token =>
      rw [hfirst] at token
      cases token
      simp at ht

/-- A token as it is written behind others. -/
def Token.spelled (t : Token) : List Char :=
  if t.kind = "nl" then ['\n'] else ' ' :: t.text.toList

/-- The texts of some tokens, each behind a blank, and a newline for each end of a line. -/
def respelled (ts : List Token) : String := String.ofList (ts.flatMap Token.spelled)

theorem scanToken_spelled {rest : List Char} (h : scanToken cs = some (t, rest)) (u : List Char) :
    scanToken (t.spelled ++ u) = scanToken (t.text.toList ++ u) := by
  unfold Token.spelled
  split
  · next ht => rw [text_of_newline h ht]; rfl
  · rw [List.cons_append, scanToken_space]

theorem head_spelled (ts : List Token) :
    ∀ c ∈ (ts.flatMap Token.spelled).head?, c = '\n' ∨ c = ' ' := by
  cases ts with
  | nil => simp
  | cons t ts =>
    rw [List.flatMap_cons]
    unfold Token.spelled
    split <;> simp

theorem head_spelled_line {rest : List Char} (h : ∀ c ∈ rest.head?, c = '\n') :
    ∀ c ∈ (((spans rest).filterMap Span.token?).flatMap Token.spelled).head?, c = '\n' := by
  cases rest with
  | nil => simp [spans]
  | cons c rest =>
    obtain rfl := h c rfl
    have hfirst : Span.first '\n' rest = ⟨.newline, ['\n'], rest⟩ := rfl
    rw [spans, hfirst]
    simp [Span.token?, Token.spelled]

theorem spans_respelled (cs : List Char) :
    (spans (((spans cs).filterMap Span.token?).flatMap Token.spelled)).filterMap Span.token? =
      (spans cs).filterMap Span.token? := by
  rw [tokens_of_scanToken cs]
  cases hscan : scanToken cs with
  | none => simp [spans]
  | some found =>
    obtain ⟨t, rest⟩ := found
    have hlt := scanToken_lt hscan
    have ih := spans_respelled rest
    have hnext : scanToken ((t :: (spans rest).filterMap Span.token?).flatMap Token.spelled) =
        some (t, ((spans rest).filterMap Span.token?).flatMap Token.spelled) := by
      rw [List.flatMap_cons, scanToken_spelled hscan]
      rcases scanToken_text hscan with htext | ⟨hline, htext⟩
      · apply htext
        intro c hc
        rcases head_spelled _ c hc with rfl | rfl <;> decide
      · exact htext _ (head_spelled_line hline)
    rw [tokens_of_scanToken, hnext]
    dsimp only
    rw [ih]
termination_by cs.length

theorem exists_scanToken (cs : List Char) (h : t ∈ (spans cs).filterMap Span.token?) :
    ∃ ds rest, scanToken ds = some (t, rest) := by
  rw [tokens_of_scanToken] at h
  cases hscan : scanToken cs with
  | none => simp [hscan] at h
  | some found =>
    obtain ⟨u, rest⟩ := found
    have hlt := scanToken_lt hscan
    rw [hscan] at h
    rcases List.mem_cons.mp h with rfl | h
    · exact ⟨cs, rest, hscan⟩
    · exact exists_scanToken rest h
termination_by cs.length

/-- Tokens are read back from their texts, together or one by one. -/
theorem tokens_read_back (text : String) :
    tokenize (respelled (tokenize text)) = tokenize text ∧
      ∀ t ∈ tokenize text, tokenize t.text = [t] := by
  constructor
  · unfold respelled
    rw [tokenize, String.toList_ofList]
    exact spans_respelled text.toList
  · intro t ht
    obtain ⟨cs, rest, hscan⟩ := exists_scanToken _ ht
    have halone : scanToken (t.text.toList ++ []) = some (t, []) := by
      rcases scanToken_text hscan with htext | ⟨-, htext⟩
      · exact htext [] (by simp)
      · exact htext [] (by simp)
    rw [List.append_nil] at halone
    rw [tokenize, tokens_of_scanToken, halone]
    simp [spans]

end ShiftReduce
