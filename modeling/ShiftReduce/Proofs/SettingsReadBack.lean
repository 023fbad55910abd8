import ShiftReduce.Proofs.LineNumbers
import ShiftReduce.Proofs.Respelling
import ShiftReduce.Proofs.SettingsLanguage

/-! # Written settings are read back

Each setting is written on a line of its own. The lines make statements, and a parse of these gives
the settings in the order in which they were written.
-/

namespace ShiftReduce

/-! ## Texts that are one token -/

/-- A token that can be written on a line. -/
structure Token.Spells (t : Token) : Prop where
  line : '\n' ∉ t.text.toList
  scans : t.Scans

theorem spells_lexeme {k : Lexeme} {kind text : String} (hw : text.toList ∈ k.language)
    (hkind : k.terminal? text.toList = some kind) (hk : k.isString = false)
    (hline : k ≠ .newline) : Token.Spells ⟨kind, text⟩ where
  line := Lexeme.newline_not_mem hline hw
  scans := by
    intro u hu
    have hscan := scanToken_lexeme hw hkind hk hu
    rwa [String.ofList_toList] at hscan

theorem spells_literal {q : Char} (hq : Quoted.isQuote q = true) (content : List Char) :
    (literal q content).Spells where
  line := by
    have hmem : (literal q content).text.toList ∈ quotedBy q := by
      refine mem_quotedBy.mpr ⟨_, ?_, Quoted.encoded_mem hq content⟩
      simp [literal, Quoted.encode]
    refine Lexeme.newline_not_mem_quotedBy ?_ hmem
    rcases Quoted.quote_cases hq with rfl | rfl <;> decide
  scans := scans_literal hq content

theorem tokenize_token {t : Token} (ht : t.Spells) {rest : String}
    (h : ∀ c ∈ rest.toList.head?, Lexeme.isWordChar c = false) :
    tokenize (t.text ++ rest) = t :: tokenize rest := by
  rw [tokenize, String.toList_append, tokens_of_scanToken, ht.scans _ h]
  rfl

theorem no_word_at {c : Char} (hc : Lexeme.isWordChar c = false) (text : String) :
    ∀ d ∈ (String.ofList [c] ++ text).toList.head?, Lexeme.isWordChar d = false := by
  intro d hd
  rw [String.toList_append, String.toList_ofList] at hd
  obtain rfl : c = d := by simpa using hd
  exact hc

@[simp]
theorem tokenize_space (text : String) : tokenize (" " ++ text) = tokenize text := by
  have hscan : scanToken (" ".toList ++ text.toList) = scanToken text.toList :=
    scanToken_space text.toList
  unfold tokenize
  rw [String.toList_append, tokens_of_scanToken, hscan, ← tokens_of_scanToken]

theorem Quoted.body?_quoted {q : Char} (hq : isQuote q = true) (body : List Char) :
    body? (q :: (body ++ [q])) = some body := by
  cases h : body ++ [q] with
  | nil => simp at h
  | cons r cs =>
    have hlast : (r :: cs).getLast? = some q := by simp [← h]
    have hbody : (r :: cs).dropLast = body := by simp [← h]
    rw [body?, if_pos ⟨hq, hlast⟩, hbody]

theorem Quoted.content_literal {q : Char} (hq : isQuote q = true) (text : String) :
    content (literal q text.toList).text = .ok text := by
  have hbody : body? (encode [q] text.toList) = some (text.toList.flatMap (encodeChar [q])) := by
    rw [← body?_quoted hq (text.toList.flatMap (encodeChar [q]))]
    simp [encode]
  rw [literal, content, String.toList_ofList, hbody]
  dsimp only
  rw [decode_encoded hq, String.ofList_toList]

theorem Text.isScanned_of_isDigit {c : Char} (h : c.isDigit = true) : isScanned c = true := by
  rw [Char.isDigit_iff_toNat] at h
  refine isScanned_iff.mpr ⟨0x30, by simp [decimalZeros], ?_⟩
  change 48 ≤ c.toNat ∧ c.toNat ≤ 57 at h
  omega

namespace Settings

/-! ## Lines -/

/-- The entries of some names with their values. -/
def entries (ps : List (String × Value)) : Entries := ps.map fun p => (.text p.1, p.2)

/-- Settings that can be written: the names are none of the keywords and each is there once, the
values are texts and numbers that are not too long to be read. -/
structure Restorable (ps : List (String × Value)) : Prop where
  names : ∀ p ∈ ps, Text.isName p.1.toList = true ∧ p.1 ≠ "set" ∧ p.1 ≠ "unset"
  values : ∀ p ∈ ps,
    (∃ s, p.2 = .text s) ∨ ∃ n : Nat, p.2 = .int n ∧ (toString n).length ≤ 4300
  distinct : (ps.map Prod.fst).Nodup

theorem spells_name {x : String} (hx : Text.isName x.toList = true) (hset : x ≠ "set")
    (hunset : x ≠ "unset") : Token.Spells ⟨"ident", x⟩ := by
  refine spells_lexeme (mem_name.mpr hx) ?_ rfl (by decide)
  unfold Lexeme.terminal?
  simp only [String.toList_inj, hset, hunset, if_false]

theorem number_token {n : Nat} (hn : (toString n).length ≤ 4300) :
    Token.Spells ⟨"integer", toString n⟩ ∧ Number.readInteger (toString n) = .ok n := by
  have htext : toString n = String.ofList (Nat.toDigits 10 n) := rfl
  have hdigits : ∀ d ∈ Nat.toDigits 10 n, d.isDigit = true :=
    fun d hd => Nat.isDigit_of_mem_toDigits (by decide) (by decide) hd
  have hne : Nat.toDigits 10 n ≠ [] := Nat.toDigits_ne_nil
  constructor
  · refine spells_lexeme (k := .integer) ?_ rfl rfl (by decide)
    rw [htext, String.toList_ofList]
    exact mem_digits.mpr ⟨hne, fun d hd => Text.isScanned_of_isDigit (hdigits d hd)⟩
  · rw [htext, Number.readInteger_digits hdigits hne ?_, Number.digitsValue_toDigits]
    rw [htext, String.length_ofList] at hn
    exact hn

theorem exists_token {v : Value}
    (hv : (∃ s, v = .text s) ∨ ∃ n : Nat, v = .int n ∧ (toString n).length ≤ 4300) :
    ∃ t : Token, t.text = renderValue v ∧ t.Spells ∧ Denotes t v := by
  rcases hv with ⟨s, rfl⟩ | ⟨n, rfl, hn⟩
  · refine ⟨literal '"' s.toList, rfl, spells_literal rfl _, .string (Or.inl rfl) ?_⟩
    exact Quoted.content_literal rfl s
  · obtain ⟨hspells, hread⟩ := number_token hn
    exact ⟨⟨"integer", toString n⟩, rfl, hspells, .integer rfl hread⟩

def statementText (line : String) : String := "set " ++ line ++ ";"

theorem tokenize_statement {x : String} {t : Token} (hx : Token.Spells ⟨"ident", x⟩)
    (ht : t.Spells) {rest : String} (h : ∀ c ∈ rest.toList.head?, Lexeme.isWordChar c = false) :
    tokenize (statementText (x ++ " = " ++ t.text) ++ rest) =
      [⟨"kw_set", "set"⟩, ⟨"ident", x⟩, ⟨"equal", "="⟩, t, ⟨"semicolon", ";"⟩] ++
        tokenize rest := by
  have hset : Token.Spells ⟨"kw_set", "set"⟩ :=
    spells_lexeme (mem_name.mpr rfl) rfl rfl (by decide)
  have hequal : Token.Spells ⟨"equal", "="⟩ :=
    spells_lexeme (k := .punctuation) ⟨'=', by decide⟩ rfl rfl (by decide)
  have hsemicolon : Token.Spells ⟨"semicolon", ";"⟩ :=
    spells_lexeme (k := .punctuation) ⟨';', by decide⟩ rfl rfl (by decide)
  have hspace := no_word_at (c := ' ') (by decide)
  have hend := no_word_at (c := ';') (by decide)
  have htext : statementText (x ++ " = " ++ t.text) ++ rest =
      "set" ++ (" " ++ (x ++ (" " ++ ("=" ++ (" " ++ (t.text ++ (";" ++ rest))))))) := by
    rw [← String.toList_inj]
    simp [statementText]
  rw [htext, tokenize_token hset (hspace _), tokenize_space, tokenize_token hx (hspace _),
    tokenize_space, tokenize_token hequal (hspace _), tokenize_space,
    tokenize_token ht (hend _), tokenize_token hsemicolon h]
  rfl

theorem tokenize_newline (text : String) :
    tokenize ("\n" ++ text) = ⟨"nl", "\n"⟩ :: tokenize text := by
  have hscan : scanToken ("\n".toList ++ text.toList) = some (⟨"nl", "\n"⟩, text.toList) :=
    scanToken_of_first rfl
  rw [tokenize, String.toList_append, tokens_of_scanToken, hscan]
  rfl

theorem significant_append {us : List Token} (h : ∀ t ∈ us, t.kind ≠ "eof" ∧ t.kind ≠ "nl")
    (ts : List Token) : significant (us ++ ts) = us ++ significant ts := by
  have heof : ∀ t ∈ us, (t.kind != "eof") = true := fun t ht => by simp [(h t ht).1]
  have hline : us.filter (fun t => t.kind != "nl") = us :=
    List.filter_eq_self.mpr fun t ht => by simp [(h t ht).2]
  unfold significant
  rw [List.takeWhile_append_of_pos heof, List.filter_append, hline]

theorem significant_newline (ts : List Token) :
    significant (⟨"nl", "\n"⟩ :: ts) = significant ts := by
  simp [significant]

/-! ## All settings -/

def line (p : String × Value) : String := p.1 ++ " = " ++ renderValue p.2

/-- The statements of some settings, each on its line. -/
def restated (ps : List (String × Value)) : String :=
  "\n".intercalate (ps.map fun p => statementText (line p))

theorem restated_cons (p : String × Value) (ps : List (String × Value)) :
    ∃ rest, restated (p :: ps) = statementText (line p) ++ rest ∧
      (∀ c ∈ rest.toList.head?, Lexeme.isWordChar c = false) ∧
      significant (tokenize rest) = significant (tokenize (restated ps)) := by
  cases ps with
  | nil => exact ⟨"", by simp [restated], by simp, rfl⟩
  | cons q ps =>
    refine ⟨"\n" ++ restated (q :: ps), ?_, ?_, ?_⟩
    · simp [restated, String.append_assoc]
    · exact no_word_at (by decide) _
    · rw [tokenize_newline, significant_newline]

theorem Restorable.tail {p : String × Value} {ps : List (String × Value)}
    (h : Restorable (p :: ps)) : Restorable ps where
  names := fun q hq => h.names q (List.mem_cons_of_mem p hq)
  values := fun q hq => h.values q (List.mem_cons_of_mem p hq)
  distinct := (List.nodup_cons.mp h.distinct).2

theorem Restorable.program {ps : List (String × Value)} (h : Restorable ps) :
    Program (ps.map fun p => .set p.1 p.2) (significant (tokenize (restated ps))) := by
  induction ps with
  | nil =>
    have hnone : significant (tokenize (restated [])) = [] := by
      simp [restated, tokenize, spans, significant]
    rw [hnone]
    exact .nil
  | cons p ps ih =>
    obtain ⟨hname, hset, hunset⟩ := h.names p (by simp)
    obtain ⟨t, htext, hspells, hdenotes⟩ := exists_token (h.values p (by simp))
    obtain ⟨rest, hrest, hhead, hsame⟩ := restated_cons p ps
    -- The line end behind the statement does not count, so what is left are the other statements.
    have hline : line p = p.1 ++ " = " ++ t.text := by rw [line, htext]
    rw [hrest, hline, tokenize_statement (spells_name hname hset hunset) hspells hhead,
      significant_append ?_, hsame]
    · have hwritten : Written (.set p.1 p.2) [⟨"kw_set", "set"⟩, ⟨"ident", p.1⟩, ⟨"equal", "="⟩, t,
          ⟨"semicolon", ";"⟩] := .set (x := ⟨"ident", p.1⟩) ⟨rfl, rfl, rfl, rfl⟩ hdenotes
      exact .cons hwritten (ih h.tail)
    · have hkind := hdenotes.kind_mem
      have hvalue : ∀ kind ∈ valueKinds, kind ≠ "eof" ∧ kind ≠ "nl" := by decide
      intro u hu
      simp only [List.mem_cons, List.not_mem_nil, or_false] at hu
      rcases hu with rfl | rfl | rfl | rfl | rfl
      · simp
      · simp
      · simp
      · exact hvalue _ hkind
      · simp

@[simp]
theorem entries_cons (p : String × Value) (ps : List (String × Value)) :
    entries (p :: ps) = (.text p.1, p.2) :: entries ps := rfl

theorem insert_new {ps : List (String × Value)} {x : String} (hx : x ∉ ps.map Prod.fst)
    (v : Value) : (entries ps).insert (.text x) v = entries (ps ++ [(x, v)]) := by
  induction ps with
  | nil => rfl
  | cons p ps ih =>
    rw [List.map_cons, List.mem_cons, not_or] at hx
    have hne : ¬ (Value.text p.1).sameKey (.text x) = true := by
      simpa using Ne.symm hx.1
    rw [entries_cons, List.cons_append, entries_cons, Entries.insert, if_neg hne, ih hx.2]

theorem applyAll_sets (before after : List (String × Value))
    (hnodup : ((before ++ after).map Prod.fst).Nodup)
    (hvalues : ∀ p ∈ after, ∀ es, resolve es p.2 = p.2) :
    applyAll (entries before) (after.map fun p => .set p.1 p.2) = entries (before ++ after) := by
  induction after generalizing before with
  | nil => rw [List.append_nil]; rfl
  | cons p after ih =>
    have hp : p.1 ∉ before.map Prod.fst := by
      intro hmem
      rw [List.map_append, List.nodup_append] at hnodup
      exact hnodup.2.2 p.1 hmem p.1 (by simp) rfl
    have hnext := ih (before ++ [p]) (by simpa using hnodup)
      fun q hq => hvalues q (List.mem_cons_of_mem p hq)
    rw [List.append_cons, ← hnext, ← insert_new hp p.2, List.map_cons, applyAll, List.foldl_cons,
      apply, hvalues p (by simp)]
    rfl

theorem Restorable.applied {ps : List (String × Value)} (h : Restorable ps) :
    applyAll [] (ps.map fun p => .set p.1 p.2) = entries ps := by
  refine applyAll_sets [] ps h.distinct ?_
  intro p hp es
  rcases h.values p hp with ⟨s, hv⟩ | ⟨n, hv, -⟩
  · rw [hv]
    rfl
  · rw [hv]
    rfl

theorem Restorable.newline_not_mem {ps : List (String × Value)} (h : Restorable ps)
    {p : String × Value} (hp : p ∈ ps) : '\n' ∉ (line p).toList := by
  obtain ⟨hname, hset, hunset⟩ := h.names p hp
  obtain ⟨t, htext, hspells, -⟩ := exists_token (h.values p hp)
  have hx := (spells_name hname hset hunset).line
  rw [line, ← htext, String.toList_append, String.toList_append, List.mem_append, List.mem_append]
  rintro ((hmem | hmem) | hmem)
  · exact hx hmem
  · exact absurd hmem (by decide)
  · exact hspells.line hmem

/-- Settings are written one to a line, and the lines are read back as the settings. -/
theorem settings_read_back {ps : List (String × Value)} (h : Restorable ps)
    (name : Option String) (debug : Bool) :
    render (.dict (entries ps)) = .ok (.text ("\n".intercalate (ps.map line))) ∧
      (∀ p ∈ ps, '\n' ∉ (line p).toList) ∧
      ∃ i t, Input.text name none (some ("\n".intercalate ((ps.map line).map statementText))) =
          .ok i ∧ Grammar.settings.table = .ok t ∧
        let m : Machine Value := { table := t, rules := Grammar.settings.rules, debug := debug }
        ∃ d, m.Parses (m.start (.ofInputs [i]))
          (.ok (.accepted (.value (.dict (entries ps))))) d := by
  refine ⟨?_, fun p => h.newline_not_mem, _, table, rfl, table_settings, ?_⟩
  · rw [render, entries, List.map_map]
    rfl
  · have htokens := tokens_text (Input.nameFrom name none "<string>") (restated ps)
    obtain ⟨z, rest, hz, hstands⟩ :=
      stands_of_tokens (m := machine debug) rfl htokens (placed_tokens _ _)
    obtain ⟨d, hend⟩ := h.program.accepted hz .start hstands
    rw [h.applied] at hend
    rw [List.map_map]
    exact ⟨d, hend.parses validate_rules⟩

/-- A text with a quote and the end of a line in it, and a number. -/
def twoKinds : List (String × Value) := [("b", .text "a \"b\"\n"), ("a", .int 10)]

theorem settings_read_back_twoKinds :
    Restorable twoKinds ∧
      render (.dict (entries twoKinds)) = .ok (.text "b = \"a \\\"b\\\"\\n\"\na = 10") ∧
      ∃ i t, Input.text none none (some "set b = \"a \\\"b\\\"\\n\";\nset a = 10;") = .ok i ∧
        Grammar.settings.table = .ok t ∧
        let m : Machine Value := { table := t, rules := Grammar.settings.rules }
        ∃ d, m.Parses (m.start (.ofInputs [i])) (.ok (.accepted (.value
          (.dict [(.text "b", .text "a \"b\"\n"), (.text "a", .int 10)])))) d := by
  have h : Restorable twoKinds := by
    refine ⟨by decide, ?_, by decide⟩
    intro p hp
    simp only [twoKinds, List.mem_cons, List.not_mem_nil, or_false] at hp
    rcases hp with rfl | rfl
    · exact Or.inl ⟨_, rfl⟩
    · exact Or.inr ⟨10, rfl, by decide⟩
  obtain ⟨hrender, -, hparse⟩ := settings_read_back h none false
  exact ⟨h, hrender, hparse⟩

end Settings

end ShiftReduce
