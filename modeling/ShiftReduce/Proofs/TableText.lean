import Mathlib.Data.List.Forall2
import ShiftReduce.File
import ShiftReduce.Proofs.TableLines
import ShiftReduce.Proofs.Utf8
import ShiftReduce.Proofs.WireLine

/-! # Reading the text of a table

A text is a table just if each of its lines is bare or says a row, and no two rows have the same
key. The table then holds the rows in their order, and how they were laid out makes no difference.
Otherwise the first line at fault ends the reading.
-/

namespace ShiftReduce

/-! ## Lines -/

namespace Text

variable {c : Char} {line raw cs : List Char}

theorem linesFrom_cons (h : c = '\r' → cs.head? ≠ some '\n') (line : List Char) :
    linesFrom line (c :: cs) =
      if isLineBreak c then line.reverse :: linesFrom [] cs else linesFrom (c :: line) cs := by
  rw [linesFrom]
  rintro cs' rfl rfl
  exact h rfl rfl

theorem linesFrom_unifyNewlines (line cs : List Char) :
    linesFrom line (unifyNewlines cs) = linesFrom line cs := by
  fun_induction unifyNewlines cs generalizing line with
  | case1 => rfl
  | case2 cs ih =>
    rw [linesFrom_cons (by simp), if_pos (by decide), ih, linesFrom]
  | case3 c cs hpair ih =>
    have hhead : c = '\r' → cs.head? ≠ some '\n' := by
      intro hc hcs
      obtain ⟨rest, rfl⟩ := List.head?_eq_some_iff.mp hcs
      exact hpair rest hc rfl
    rw [linesFrom_cons hhead]
    by_cases hc : c = '\r'
    · subst hc
      rw [if_pos rfl, linesFrom_cons (by simp), if_pos (by decide), if_pos (by decide), ih]
    · rw [if_neg hc, linesFrom_cons (by simp [hc]), ih, ih]

theorem lines_unifyNewlines (cs : List Char) : lines (unifyNewlines cs) = lines cs :=
  linesFrom_unifyNewlines [] cs

/-- The ends that a line can be given. -/
def lineEnds : List (List Char) := [['\n'], ['\r', '\n'], ['\r']]

def Unbroken (raw : List Char) : Prop := ∀ c ∈ raw, isLineBreak c = false

instance (raw : List Char) : Decidable (Unbroken raw) :=
  List.decidableBAll (isLineBreak · = false) raw

theorem linesFrom_unbroken (h : Unbroken raw) (line cs : List Char) :
    linesFrom line (raw ++ cs) = linesFrom (raw.reverse ++ line) cs := by
  induction raw generalizing line with
  | nil => rfl
  | cons c raw ih =>
    have hc := h c (by simp)
    have hne : c ≠ '\r' := by
      rintro rfl
      exact absurd hc (by decide)
    rw [List.cons_append, linesFrom_cons (by simp [hne]), if_neg (by simp [hc]),
      ih fun d hd => h d (by simp [hd])]
    simp

theorem lines_unbroken (h : Unbroken raw) : lines raw = if raw.isEmpty then [] else [raw] := by
  have hlines := linesFrom_unbroken h [] []
  rw [List.append_nil] at hlines
  rw [lines, hlines]
  simp [linesFrom]

theorem lines_line {ending : List Char} (h : Unbroken raw) (hend : ending ∈ lineEnds)
    (rest : List Char) :
    lines (raw ++ ending ++ rest) = raw :: lines rest ∨
      ∃ later, lines rest = [] :: later ∧ lines (raw ++ ending ++ rest) = raw :: later := by
  rw [List.append_assoc, lines, linesFrom_unbroken h, List.append_nil]
  have hbreak : ∀ c, isLineBreak c = true → (c = '\r' → rest.head? ≠ some '\n') →
      linesFrom raw.reverse (c :: rest) = raw :: lines rest := by
    intro c hc hhead
    rw [linesFrom_cons hhead, if_pos hc, List.reverse_reverse, lines]
  simp only [lineEnds, List.mem_cons, List.not_mem_nil, or_false] at hend
  rcases hend with rfl | rfl | rfl
  · exact Or.inl (hbreak '\n' (by decide) (by simp))
  · left
    rw [List.cons_append, List.cons_append, List.nil_append, linesFrom, List.reverse_reverse, lines]
  · -- A line feed right behind belongs to the carriage return. Alone it would end an empty line.
    by_cases hrest : rest.head? = some '\n'
    · obtain ⟨rest, rfl⟩ := List.head?_eq_some_iff.mp hrest
      refine Or.inr ⟨lines rest, ?_, ?_⟩
      · rw [lines, linesFrom_cons (by simp), if_pos (by decide), lines]
        rfl
      · rw [List.cons_append, List.nil_append, linesFrom, List.reverse_reverse, lines]
    · exact Or.inl (hbreak '\r' (by decide) fun _ => hrest)

end Text

namespace Table

open Number (Numeral)

variable {raw : List Char} {raws : List (List Char)} {row : Row} {rows : List Row}
variable {text name : String} {start : Int}

/-! ## Texts that are tables -/

/-- The lines that hold a field. -/
def stated (raws : List (List Char)) : List (List Char) := raws.filter fun raw => !isBare raw

/-- What the lines say, those left out that are bare. -/
def Reads (raws : List (List Char)) (rows : List Row) : Prop := List.Forall₂ Says (stated raws) rows

theorem stated_cons_bare (h : isBare raw = true) : stated (raw :: raws) = stated raws := by
  simp [stated, h]

theorem stated_cons (h : isBare raw = false) : stated (raw :: raws) = raw :: stated raws := by
  simp [stated, h]

theorem reads_bare (h : isBare raw = true) : Reads [raw] [] := by
  rw [Reads, stated_cons_bare h]
  exact .nil

theorem reads_row (h : Says raw row) : Reads [raw] [row] := by
  rw [Reads, stated_cons h.not_isBare]
  exact .cons h .nil

theorem stated_append (xs ys : List (List Char)) : stated (xs ++ ys) = stated xs ++ stated ys :=
  List.filter_append xs ys

theorem Reads.append {raws' : List (List Char)} {rows' : List Row} (h : Reads raws rows)
    (h' : Reads raws' rows') : Reads (raws ++ raws') (rows ++ rows') := by
  unfold Reads
  rw [stated_append]
  exact List.rel_append h h'

theorem addLines_reads (taken : List Row) (h : Reads raws rows)
    (hkeys : ((taken ++ rows).map Row.key).Nodup) (number : Nat) :
    (ofRows taken name start).addLines number raws = .ok (ofRows (taken ++ rows) name start) := by
  induction raws generalizing taken rows number with
  | nil =>
    cases h
    rw [List.append_nil]
    rfl
  | cons raw raws ih =>
    unfold Reads at h
    cases hbare : isBare raw with
    | true =>
      rw [stated_cons_bare hbare] at h
      rw [addLines, addLine_bare hbare]
      exact ih taken h hkeys (number + 1)
    | false =>
      rw [stated_cons hbare] at h
      cases h with
      | @cons _ row _ rows hrow hrest =>
        have hfree : row.key ∉ taken.map Row.key := by
          rw [List.map_append, List.map_cons] at hkeys
          intro hmem
          exact List.disjoint_of_nodup_append hkeys hmem (by simp)
        rw [addLines, addLine_row hrow hfree]
        rw [List.append_cons] at hkeys
        rw [List.append_cons taken row rows]
        exact ih (taken ++ [row]) hrest hkeys (number + 1)

theorem addLines_append (t : Table) (number : Nat) (xs ys : List (List Char)) :
    t.addLines number (xs ++ ys) =
      match t.addLines number xs with
      | .error f => .error f
      | .ok t => t.addLines (number + xs.length) ys := by
  induction xs generalizing t number with
  | nil => rfl
  | cons raw xs ih =>
    rw [List.cons_append, addLines, addLines]
    cases t.addLine number raw with
    | error f => rfl
    | ok t =>
      dsimp only
      rw [ih, List.length_cons, show number + 1 + xs.length = number + (xs.length + 1) by omega]

theorem parse_reads (h : Reads (Text.lines text.toList) rows) (hkeys : (rows.map Row.key).Nodup) :
    parse text name start = .ok (ofRows rows name start) := by
  have hread : ofText text name start = .ok (ofRows rows name start) :=
    addLines_reads [] h hkeys 1
  rw [parse, hread]

theorem parse_stops {before after : List (List Char)} {fault : ReadFault}
    (hlines : Text.lines text.toList = before ++ raw :: after) (h : Reads before rows)
    (hkeys : (rows.map Row.key).Nodup)
    (hfault : (ofRows rows name start).addLine (before.length + 1) raw = .error fault) :
    parse text name start = .error (.ofTable name fault) := by
  have hbefore : (empty name start).addLines 1 before = .ok (ofRows rows name start) :=
    addLines_reads [] h hkeys 1
  have hread : ofText text name start = .error fault := by
    rw [ofText, hlines, addLines_append, hbefore]
    dsimp only
    rw [addLines, Nat.add_comm 1, hfault]
  rw [parse, hread]

/-! ## Layouts -/

/-- The row that a line holds, if any, with blanks around and between the fields, and a comment
behind them. -/
inductive Line : List Char → Option Row → Prop
  | bare {a comment : List Char} (ha : Text.Blanks a) (hcomment : IsComment comment) :
      Line (a ++ comment) none
  | row {a state b c d comment : List Char} {form : EntryForm} {row : Row} (ha : Text.Blanks a)
      (hstate : Numeral state row.state) (hb : b ≠ [] ∧ Text.Blanks b)
      (hsymbol : Text.isName row.symbol.toList = true) (hc : c ≠ [] ∧ Text.Blanks c)
      (hplain : form.Plain) (hentry : form.Means row.entry)
      (hd : Text.Blanks d) (hcomment : IsComment comment) :
      Line (a ++ state ++ (b ++ row.symbol.toList ++ (c ++ form.chars ++ d)) ++ comment) (some row)

/-- A text made of lines, each with an end of its own, that hold some rows in their order. -/
inductive Layout : List Char → List Row → Prop
  | last {raw : List Char} {row? : Option Row} (h : Line raw row?) (hraw : Text.Unbroken raw) :
      Layout raw row?.toList
  | line {raw ending rest : List Char} {row? : Option Row} {rows : List Row} (h : Line raw row?)
      (hraw : Text.Unbroken raw) (hend : ending ∈ Text.lineEnds) (hrest : Layout rest rows) :
      Layout (raw ++ ending ++ rest) (row?.toList ++ rows)

theorem EntryForm.isNameChar_chars {form : EntryForm} (h : form.Plain) :
    ∀ c ∈ form.chars, Text.isNameChar c = true := by
  have hdigits : ∀ ds ∈ form.digits?, ∀ c ∈ ds, Text.isNameChar c = true := by
    intro ds hds c hc
    exact Text.isNameChar_of_isDigit ((isNumeral_iff.mp (h ds hds)).2 c hc)
  cases form with
  | accept => exact List.all_eq_true.mp (by decide)
  | goto ds => exact hdigits ds rfl
  | shift ds => exact List.forall_mem_cons.mpr ⟨by decide, hdigits ds rfl⟩
  | reduce ds => exact List.forall_mem_cons.mpr ⟨by decide, hdigits ds rfl⟩

theorem EntryForm.chars_ne_nil {form : EntryForm} (h : form.Plain) : form.chars ≠ [] := by
  cases form with
  | goto ds => exact (isNumeral_iff.mp (h ds rfl)).1
  | _ => simp [chars]

theorem no_comment {p : Char → Bool} (hp : p '#' = false) {w : List Char}
    (hw : ∀ c ∈ w, p c = true) : '#' ∉ w := by
  intro hmem
  rw [hw _ hmem] at hp
  cases hp

theorem Line.formed {a state b c d comment : List Char} {symbol : String} {form : EntryForm}
    {n : Nat} (ha : Text.Blanks a) (hstate : Numeral state n) (hb : b ≠ [] ∧ Text.Blanks b)
    (hsymbol : Text.isName symbol.toList = true) (hc : c ≠ [] ∧ Text.Blanks c)
    (hplain : form.Plain) (hd : Text.Blanks d)
    (hcomment : IsComment comment) :
    Formed (a ++ state ++ (b ++ symbol.toList ++ (c ++ form.chars ++ d)) ++ comment) state symbol
      form := by
  have hname := Text.isNameChar_of_isName hsymbol
  have hchars := EntryForm.isNameChar_chars hplain
  have hfield : ∀ {w : List Char}, w ≠ [] → (∀ c ∈ w, Text.isNameChar c = true) → Text.IsField w :=
    fun hne hw => ⟨hne, fun c hc => Text.isBlank_of_isNameChar (hw c hc)⟩
  have hgap : ∀ {gap : List Char} (w rest : List Char), gap ≠ [] ∧ Text.Blanks gap →
      ∀ c ∈ (gap ++ w ++ rest).head?, Text.isBlank c = true := by
    rintro (_ | ⟨c, gap⟩) w rest ⟨hne, hgap⟩
    · exact absurd rfl hne
    · simpa using hgap c (by simp)
  refine ⟨⟨_, comment, rfl, ?_, hcomment, ?_⟩, ?_, hsymbol, hplain⟩
  · have hblanks : ∀ {w : List Char}, Text.Blanks w → '#' ∉ w := no_comment (by decide)
    simp only [List.mem_append, not_or]
    exact ⟨⟨hblanks ha, no_comment (by decide) hstate.isDecimal⟩,
      ⟨hblanks hb.2, no_comment (by decide) hname⟩,
      ⟨hblanks hc.2, no_comment (by decide) hchars⟩, hblanks hd⟩
  · have hrest : ∀ c ∈ d.head?, Text.isBlank c = true := fun c hc => hd c (List.mem_of_mem_head? hc)
    have hnumber : Text.IsField state := ⟨hstate.nonempty, fun c hc =>
      Text.isBlank_of_isScanned (Text.isScanned_of_isDecimal (hstate.isDecimal c hc))⟩
    have hsome : symbol.toList ≠ [] := by
      intro hnil
      rw [hnil] at hsymbol
      cases hsymbol
    have hthird : Text.IsField form.chars := hfield (EntryForm.chars_ne_nil hplain) hchars
    exact .cons ha hnumber (hgap _ _ hb) <| .cons hb.2 (hfield hsome hname) (hgap _ _ hc) <|
      .cons hc.2 hthird hrest (.nil hd)
  · intro c hc
    exact Text.isAnyDigit_iff.mpr (Or.inl (hstate.isDecimal c hc))

theorem Line.reads {row? : Option Row} (h : Line raw row?) : Reads [raw] row?.toList := by
  cases h with
  | @bare a comment ha hcomment =>
    have hfields : HasFields (a ++ comment) [] :=
      ⟨a, comment, rfl, no_comment (by decide) ha, hcomment, .nil ha⟩
    exact reads_bare (isBare_iff.mpr hfields)
  | row ha hstate hb hsymbol hc hplain hentry hd hcomment =>
    exact reads_row ⟨_, _, formed ha hstate hb hsymbol hc hplain hd hcomment, hstate, hentry⟩

theorem isBare_nil : isBare [] = true := rfl

theorem Layout.reads {cs : List Char} (h : Layout cs rows) : Reads (Text.lines cs) rows := by
  induction h with
  | @last raw row? h hraw =>
    have hreads := h.reads
    rw [Text.lines_unbroken hraw]
    split
    · next hempty =>
      rw [List.isEmpty_iff.mp hempty] at hreads
      rwa [Reads, stated_cons_bare isBare_nil] at hreads
    · exact hreads
  | @line raw ending rest row? rows h hraw hend _ ih =>
    rcases Text.lines_line hraw hend rest with hlines | ⟨later, hrest, hlines⟩
    · rw [hlines]
      exact h.reads.append ih
    · rw [hrest, Reads, stated_cons_bare isBare_nil] at ih
      rw [hlines]
      exact h.reads.append ih

theorem parse_layout (name : String) (start : Int) (h : Layout text.toList rows)
    (hkeys : (rows.map Row.key).Nodup) :
    parse text name start = .ok (ofRows rows name start) ∧
      parse (String.ofList (Text.unifyNewlines text.toList)) name start =
        .ok (ofRows rows name start) ∧
      ∀ (disk : Disk) (path : String), hasNul path = false →
        disk.read (simplifyPath path) = .ok text.toUTF8.data.toList →
          load disk path = .ok (ofRows rows path 0) := by
  have hunified : ∀ name start, parse (String.ofList (Text.unifyNewlines text.toList)) name start =
      .ok (ofRows rows name start) := by
    intro name start
    refine parse_reads ?_ hkeys
    rw [String.toList_ofList, Text.lines_unifyNewlines]
    exact h.reads
  refine ⟨parse_reads h.reads hkeys, hunified name start, ?_⟩
  intro disk path hpath hread
  have htext : fileText disk path = .ok (String.ofList (Text.unifyNewlines text.toList)) := by
    unfold fileText ShiftReduce.fileText
    simp only [hpath, hread, Text.Utf8.decode_toUTF8]
    rfl
  rw [load, htext]
  exact hunified path 0

theorem parse_layout_mixed :
    let text := "0 ident s2 # shift\r\n\r\u00A000\tS  1\n\u3000# end"
    Layout text.toList [⟨0, "ident", .shift 2⟩, ⟨0, "S", .goto 1⟩] ∧
      parse text "small.tbl" 7 =
        .ok ⟨[((0, "ident"), .shift 2)], [((0, "S"), 1)], 7, "small.tbl"⟩ ∧
      load ⟨fun _ => .ok text.toUTF8.data.toList⟩ "small.tbl" =
        .ok ⟨[((0, "ident"), .shift 2)], [((0, "S"), 1)], 0, "small.tbl"⟩ := by
  have hzero : Numeral ['0'] 0 := Number.numeral_toDigits (n := 0) (by decide)
  have hzeros : Numeral ['0', '0'] 0 := ⟨by decide, by decide, [0, 0], by decide, by decide⟩
  have hone : Numeral ['1'] 1 := Number.numeral_toDigits (n := 1) (by decide)
  have htwo : Numeral ['2'] 2 := Number.numeral_toDigits (n := 2) (by decide)
  have hshift : Line "0 ident s2 # shift".toList (some ⟨0, "ident", .shift 2⟩) :=
    @Line.row [] ['0'] [' '] [' '] [' '] "# shift".toList (.shift ['2']) ⟨0, "ident", .shift 2⟩
      (by decide) hzero (by decide) (by decide) (by decide) (by decide) (.shift htwo) (by decide)
      (by decide)
  have hgoto : Line "\u00A000\tS  1".toList (some ⟨0, "S", .goto 1⟩) :=
    @Line.row ['\u00A0'] ['0', '0'] ['\t'] [' ', ' '] [] [] (.goto ['1']) ⟨0, "S", .goto 1⟩
      (by decide) hzeros (by decide) (by decide) (by decide) (by decide) (.goto hone) (by decide)
      (by decide)
  have hempty : Line [] none := @Line.bare [] [] (by decide) (by decide)
  have hend : Line "\u3000# end".toList none :=
    @Line.bare ['\u3000'] "# end".toList (by decide) (by decide)
  have hlines : "0 ident s2 # shift\r\n\r\u00A000\tS  1\n\u3000# end".toList =
      "0 ident s2 # shift".toList ++ ['\r', '\n'] ++
        ([] ++ ['\r'] ++ ("\u00A000\tS  1".toList ++ ['\n'] ++ "\u3000# end".toList)) := by decide
  have hlayout : Layout "0 ident s2 # shift\r\n\r\u00A000\tS  1\n\u3000# end".toList
      [⟨0, "ident", .shift 2⟩, ⟨0, "S", .goto 1⟩] := by
    rw [hlines]
    exact .line hshift (by decide) (by decide) <| .line hempty (by decide) (by decide) <|
      .line hgoto (by decide) (by decide) (.last hend (by decide))
  obtain ⟨hparse, -, hload⟩ := parse_layout "small.tbl" 7 hlayout (by decide)
  exact ⟨hlayout, hparse, hload _ "small.tbl" (by decide) rfl⟩

/-! ## No entry is lost -/

theorem lookup_filterMap {β : Type} (f : Row → Option β) (hrow : row ∈ rows)
    (hkeys : (rows.map Row.key).Nodup) :
    (rows.filterMap fun r => (f r).map (r.key, ·)).lookup row.key = f row := by
  have hnone : ∀ rows : List Row, row.key ∉ rows.map Row.key →
      (rows.filterMap fun r => (f r).map (r.key, ·)).lookup row.key = none := by
    intro rows hfree
    rw [List.lookup_eq_none_iff]
    intro e he
    obtain ⟨r, hr, hmap⟩ := List.mem_filterMap.mp he
    obtain ⟨b, -, rfl⟩ := Option.map_eq_some_iff.mp hmap
    refine bne_iff_ne.mpr ?_
    intro heq
    exact hfree (heq ▸ List.mem_map_of_mem hr)
  induction rows with
  | nil => cases hrow
  | cons r rows ih =>
    rw [List.map_cons, List.nodup_cons] at hkeys
    rcases List.mem_cons.mp hrow with rfl | hmem
    · -- No later row has the key, so it stays free where `f` gives nothing.
      cases hr : f row with
      | none => simpa [hr] using hnone rows hkeys.1
      | some b => simp [hr]
    · have hne : (row.key == r.key) = false := by
        refine beq_eq_false_iff_ne.mpr ?_
        intro heq
        exact hkeys.1 (heq ▸ List.mem_map_of_mem hmem)
      rw [← ih hmem hkeys.2]
      cases hr : f r <;> simp [hr, List.lookup_cons, hne]

theorem lookup_ofRows (hrow : row ∈ rows) (hkeys : (rows.map Row.key).Nodup) :
    (ofRows rows name start).action? row.state row.symbol = row.entry.action? ∧
      (ofRows rows name start).goto? row.state row.symbol = row.entry.goto? :=
  ⟨lookup_filterMap (fun row => row.entry.action?) hrow hkeys,
    lookup_filterMap (fun row => row.entry.goto?) hrow hkeys⟩

/-- Either all lines can be added, or there is a first one at fault. -/
theorem reads_or_faulty (raws : List (List Char)) :
    (∃ rows, Reads raws rows ∧ (rows.map Row.key).Nodup) ∨
      ∃ before raw after rows, raws = before ++ raw :: after ∧ Reads before rows ∧
        (rows.map Row.key).Nodup ∧ Faulty rows raw := by
  induction raws using List.reverseRecOn with
  | nil => exact Or.inl ⟨[], .nil, .nil⟩
  | append_singleton raws raw ih =>
    rcases ih with ⟨rows, hreads, hkeys⟩ | ⟨before, raw', after, rows, rfl, hfault⟩
    · cases hbare : isBare raw with
      | true => exact Or.inl ⟨rows, by simpa using hreads.append (reads_bare hbare), hkeys⟩
      | false =>
        -- A line is at fault just if it says no row with a new key.
        by_cases hnew : ∃ row, Says raw row ∧ row.key ∉ rows.map Row.key
        · obtain ⟨row, hrow, hfree⟩ := hnew
          refine Or.inl ⟨rows ++ [row], hreads.append (reads_row hrow), ?_⟩
          rw [List.map_append]
          exact hkeys.append (List.nodup_singleton _) (by simpa using hfree)
        · push Not at hnew
          exact Or.inr ⟨raws, raw, [], rows, rfl, hreads, hkeys, hbare, hnew⟩
    · exact Or.inr ⟨before, raw', after ++ [raw], rows, by simp, hfault⟩

theorem Reads.exists_row (h : Reads raws rows) (hraw : raw ∈ stated raws) :
    ∃ row ∈ rows, Says raw row := by
  unfold Reads at h
  generalize stated raws = lines at h hraw
  induction h with
  | nil => cases hraw
  | @cons raw' row _ rows hrow _ ih =>
    rcases List.mem_cons.mp hraw with rfl | hmem
    · exact ⟨row, by simp, hrow⟩
    · obtain ⟨row', hmem', hrow'⟩ := ih hmem
      exact ⟨row', by simp [hmem'], hrow'⟩

theorem no_entry_lost (text name : String) (start : Int) :
    (∀ t, parse text name start = .ok t →
      (t.actions.map Prod.fst ++ t.gotos.map Prod.fst).Nodup ∧
        t.actions.length + t.gotos.length = (stated (Text.lines text.toList)).length ∧
        ∀ raw ∈ stated (Text.lines text.toList), (∃ row, Says raw row) ∧
          ∀ row, Says raw row → t.action? row.state row.symbol = row.entry.action? ∧
            t.goto? row.state row.symbol = row.entry.goto?) ∧
      ∀ {before after : List (List Char)} {raw state : List Char} {rows : List Row}
        {symbol : String} {form : EntryForm} {n : Nat},
        Text.lines text.toList = before ++ raw :: after → Reads before rows →
        (rows.map Row.key).Nodup → Formed raw state symbol form → Numeral state n →
        ((n : Int), symbol) ∈ rows.map Row.key →
          ∃ fault, parse text name start = .error (.config fault) ∧
            fault.message = s!"{name}:{before.length + 1}: " ++
              s!"conflicting entries for state {n} on {symbol}" := by
  constructor
  · intro t ht
    rcases reads_or_faulty (Text.lines text.toList) with
      ⟨rows, hreads, hkeys⟩ | ⟨before, raw, after, rows, hlines, hreads, hkeys, hfaulty⟩
    · rw [parse_reads hreads hkeys, Except.ok.injEq] at ht
      subst ht
      have hperm := keys_perm rows name start
      refine ⟨hperm.nodup_iff.mpr hkeys, ?_, ?_⟩
      · have hlen := hperm.length_eq
        rw [List.length_append, List.length_map, List.length_map, List.length_map] at hlen
        rw [hlen, hreads.length_eq]
      · intro raw hraw
        obtain ⟨row, hmem, hrow⟩ := hreads.exists_row hraw
        refine ⟨⟨row, hrow⟩, fun row' hrow' => ?_⟩
        rw [← hrow.unique hrow']
        exact lookup_ofRows hmem hkeys
    · obtain ⟨fault, hfault⟩ := addLine_fails hfaulty
      rw [parse_stops hlines hreads hkeys hfault] at ht
      cases ht
  · intro before after raw state rows symbol form n hlines hreads hkeys hformed hn hmem
    exact ⟨_, parse_stops hlines hreads hkeys (addLine_conflict hformed hn hmem), rfl⟩

theorem no_entry_lost_respelled :
    Reads ["0 a s1".toList, "# goto".toList] [⟨0, "a", .shift 1⟩] ∧
      ∃ fault, parse "0 a s1\n# goto\n٠٠ a 2\n" "twice.tbl" 0 = .error (.config fault) ∧
        fault.message = "twice.tbl:3: conflicting entries for state 0 on a" := by
  have hzero : Numeral ['0'] 0 := Number.numeral_toDigits (n := 0) (by decide)
  have hzeros : Numeral ['٠', '٠'] 0 := ⟨by decide, by decide, [0, 0], by decide, by decide⟩
  have hone : Numeral ['1'] 1 := Number.numeral_toDigits (n := 1) (by decide)
  have hshift : Says "0 a s1".toList ⟨0, "a", .shift 1⟩ :=
    ⟨['0'], .shift ['1'],
      ⟨hasFields_iff.mpr (by decide), List.all_eq_true.mp (by decide), by decide, by decide⟩, hzero,
      .shift hone⟩
  have hgoto : Formed "٠٠ a 2".toList ['٠', '٠'] "a" (.goto ['2']) :=
    ⟨hasFields_iff.mpr (by decide), List.all_eq_true.mp (by decide), by decide, by decide⟩
  have hreads : Reads ["0 a s1".toList, "# goto".toList] [⟨0, "a", .shift 1⟩] :=
    (reads_row hshift).append (reads_bare (by decide))
  have hlines : Text.lines "0 a s1\n# goto\n٠٠ a 2\n".toList =
      ["0 a s1".toList, "# goto".toList] ++ "٠٠ a 2".toList :: [] := by decide
  exact ⟨hreads,
    (no_entry_lost _ "twice.tbl" 0).2 hlines hreads (by decide) hgoto hzeros (by decide)⟩

/-! ## What is reported -/

theorem first_fault_reported (text name : String) (start : Int) :
    (∃ rows, Reads (Text.lines text.toList) rows ∧ (rows.map Row.key).Nodup ∧
      parse text name start = .ok (ofRows rows name start)) ∨
    ∃ before raw after rows, Text.lines text.toList = before ++ raw :: after ∧ Reads before rows ∧
      (rows.map Row.key).Nodup ∧ Faulty rows raw ∧
      ((¬ Uncounted rows raw ∧ ∃ fault rest, parse text name start = .error (.config fault) ∧
          fault.message = s!"{name}:{before.length + 1}:" ++ rest) ∨
        Uncounted rows raw ∧ ∃ fault, parse text name start = .error (.value (.number fault))) := by
  rcases reads_or_faulty (Text.lines text.toList) with
    ⟨rows, hreads, hkeys⟩ | ⟨before, raw, after, rows, hlines, hreads, hkeys, hfaulty⟩
  · exact Or.inl ⟨rows, hreads, hkeys, parse_reads hreads hkeys⟩
  · refine Or.inr ⟨before, raw, after, rows, hlines, hreads, hkeys, hfaulty, ?_⟩
    by_cases huncounted : Uncounted rows raw
    · obtain ⟨fault, hfault⟩ := addLine_uncounted huncounted
      exact Or.inr ⟨huncounted, fault, parse_stops hlines hreads hkeys hfault⟩
    · obtain ⟨fault, hfault⟩ := addLine_faulty hfaulty huncounted
      refine Or.inl ⟨huncounted, .tableLine name (before.length + 1) fault, " " ++ fault.message,
        parse_stops hlines hreads hkeys hfault, ?_⟩
      have hcolon : toString ": " = toString ":" ++ " " := by decide
      dsimp only [ConfigFault.message]
      rw [hcolon, ← String.append_assoc, ← String.append_assoc]

/-- A superscript is a digit of a state's form, but no number has it. -/
theorem superscript_state_escapes :
    parse "² ident s1\n" "bad.tbl" 0 = .error (.value (.number (.malformed "²"))) := by
  decide

end Table

end ShiftReduce
