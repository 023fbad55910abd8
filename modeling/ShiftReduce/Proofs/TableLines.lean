import ShiftReduce.Proofs.Numerals
import ShiftReduce.Table.Reader

/-! # What a line of a table says

A line holds fields with blanks around them, and a comment may follow. If there are three of them
and each is of its form, the line says what stands under a key. Reading such a line adds just this
to a table, unless the key is taken or one of the numbers cannot be read.
-/

namespace ShiftReduce

/-! ## Fields -/

namespace Text

def Blanks (cs : List Char) : Prop := ∀ c ∈ cs, isBlank c = true

instance (cs : List Char) : Decidable (Blanks cs) := List.decidableBAll (isBlank · = true) cs

def IsField (w : List Char) : Prop := w ≠ [] ∧ ∀ c ∈ w, isBlank c = false

/-- Fields with blanks around and between them. -/
inductive Spaced : List Char → List (List Char) → Prop
  | nil {cs : List Char} (h : Blanks cs) : Spaced cs []
  | cons {a w rest : List Char} {ws : List (List Char)} (ha : Blanks a) (hw : IsField w)
      (hrest : ∀ c ∈ rest.head?, isBlank c = true) (h : Spaced rest ws) :
      Spaced (a ++ w ++ rest) (w :: ws)

variable {c : Char} {cs w : List Char} {ws : List (List Char)}

theorem fields_blank (h : isBlank c = true) (cs : List Char) : fields (c :: cs) = fields cs := by
  cases cs <;> simp [fields, h]

theorem fields_blanks {before : List Char} (h : Blanks before) (cs : List Char) :
    fields (before ++ cs) = fields cs := by
  induction before with
  | nil => rfl
  | cons c before ih =>
    rw [List.cons_append, fields_blank (h c (by simp)), ih fun d hd => h d (by simp [hd])]

theorem fields_word (hw : IsField w) {rest : List Char}
    (hrest : ∀ c ∈ rest.head?, isBlank c = true) : fields (w ++ rest) = w :: fields rest := by
  obtain ⟨hne, hall⟩ := hw
  induction w with
  | nil => exact absurd rfl hne
  | cons c w ih =>
    have hc := hall c (by simp)
    cases w with
    | nil =>
      cases rest with
      | nil => simp [fields, hc]
      | cons d rest => simp [fields, hc, hrest d rfl]
    | cons d w =>
      have hd := hall d (by simp)
      have htail := ih (by simp) fun e he => hall e (by simp [he])
      rw [List.cons_append] at htail
      simp [fields, hc, hd, htail]

theorem fields_of_spaced (h : Spaced cs ws) : fields cs = ws := by
  induction h with
  | @nil cs h =>
    have hfields := fields_blanks h []
    rwa [List.append_nil] at hfields
  | cons ha hw hrest _ ih => rw [List.append_assoc, fields_blanks ha, fields_word hw hrest, ih]

theorem Spaced.start (hw : IsField w) {rest : List Char}
    (hrest : ∀ c ∈ rest.head?, isBlank c = true) (h : Spaced rest ws) :
    Spaced (w ++ rest) (w :: ws) :=
  .cons (a := []) (by simp [Blanks]) hw hrest h

theorem Spaced.blank (hc : isBlank c = true) (h : Spaced cs ws) : Spaced (c :: cs) ws := by
  cases h with
  | nil h => exact .nil (List.forall_mem_cons.mpr ⟨hc, h⟩)
  | @cons a w rest ws ha hw hrest h =>
    exact .cons (a := c :: a) (List.forall_mem_cons.mpr ⟨hc, ha⟩) hw hrest h

theorem Spaced.grow {d : Char} (hc : isBlank c = false) (hd : isBlank d = false)
    (h : Spaced (d :: cs) (w :: ws)) : Spaced (c :: d :: cs) ((c :: w) :: ws) := by
  generalize hds : d :: cs = ds at h
  generalize hvs : w :: ws = vs at h
  cases h with
  | nil => cases hvs
  | @cons a v rest vs ha hv hrest h =>
    cases hvs
    cases a with
    | nil => exact .start ⟨by simp, List.forall_mem_cons.mpr ⟨hc, hv.2⟩⟩ hrest h
    | cons e a =>
      cases hds
      rw [ha d (by simp)] at hd
      cases hd

theorem spaced_fields (cs : List Char) : Spaced cs (fields cs) := by
  have hone : ∀ {c : Char}, isBlank c = false → IsField [c] := by
    intro c hc
    simp [IsField, hc]
  fun_induction fields cs with
  | case1 => exact .nil (by simp [Blanks])
  | case2 c hc => exact .nil (by simpa [Blanks] using hc)
  | case3 c hc =>
    exact .start (hone (by simpa using hc)) (by simp) (.nil (by simp [Blanks]))
  | case4 c d cs hc ih => exact ih.blank hc
  | case5 c d cs hc hd ih =>
    exact .start (hone (by simpa using hc)) (by simpa using hd) ih
  | case6 c d cs hc hd w ws hfields ih =>
    rw [hfields] at ih
    exact ih.grow (by simpa using hc) (by simpa using hd)
  | case7 c d cs hc hd hfields ih =>
    rw [hfields] at ih
    generalize hds : d :: cs = ds at ih
    cases ih with
    | nil h =>
      subst hds
      exact absurd (h d (by simp)) hd

theorem fields_eq_iff : fields cs = ws ↔ Spaced cs ws :=
  ⟨fun h => h ▸ spaced_fields cs, fields_of_spaced⟩

theorem Spaced.append {after : List Char} (h : Spaced cs ws) (ha : Blanks after) :
    Spaced (cs ++ after) ws := by
  induction h with
  | nil h => exact .nil (List.forall_mem_append.mpr ⟨h, ha⟩)
  | @cons a w rest ws ha' hw hrest _ ih =>
    rw [List.append_assoc]
    refine .cons ha' hw ?_ ih
    cases rest with
    | nil =>
      intro c hc
      exact ha c (List.mem_of_mem_head? hc)
    | cons d rest => simpa using hrest

theorem exists_trimmed (cs : List Char) :
    ∃ before after, Blanks before ∧ Blanks after ∧ cs = before ++ trim cs ++ after := by
  have hrun : ∀ l : List Char, Blanks (l.takeWhile isBlank) :=
    fun l c hc => List.mem_takeWhile_imp hc
  refine ⟨cs.takeWhile isBlank, ((cs.dropWhile isBlank).reverse.takeWhile isBlank).reverse,
    hrun cs, ?_, ?_⟩
  · intro c hc
    exact hrun _ c (List.mem_reverse.mp hc)
  · unfold trim trimBy
    rw [List.append_assoc, ← List.reverse_append, List.takeWhile_append_dropWhile,
      List.reverse_reverse, List.takeWhile_append_dropWhile]

theorem fields_trim (cs : List Char) : fields (trim cs) = fields cs := by
  obtain ⟨before, after, hbefore, hafter, hcs⟩ := exists_trimmed cs
  have hspaced := (spaced_fields (trim cs)).append hafter
  conv_rhs => rw [hcs, List.append_assoc, fields_blanks hbefore]
  exact (fields_of_spaced hspaced).symm

theorem trim_eq_nil_iff : trim cs = [] ↔ Blanks cs := by
  constructor
  · intro h
    obtain ⟨before, after, hbefore, hafter, hcs⟩ := exists_trimmed cs
    rw [hcs, h, List.append_nil]
    exact List.forall_mem_append.mpr ⟨hbefore, hafter⟩
  · intro h
    unfold trim trimBy
    rw [List.dropWhile_eq_nil_iff.mpr h]
    rfl

end Text

namespace Table

open Number (Numeral maxDigits)

variable {raw : List Char} {ws : List (List Char)}

/-- A comment, or nothing. -/
def IsComment (cs : List Char) : Prop := ∀ c ∈ cs.head?, c = '#'

instance : (cs : List Char) → Decidable (IsComment cs)
  | [] => .isTrue (by simp [IsComment])
  | c :: _ => decidable_of_iff (c = '#') (by simp [IsComment])

/-- A line that holds some fields, and nothing else in front of its comment. -/
def HasFields (raw : List Char) (ws : List (List Char)) : Prop :=
  ∃ body comment, raw = body ++ comment ∧ '#' ∉ body ∧ IsComment comment ∧ Text.Spaced body ws

/-- Whether a line holds no field. -/
def isBare (raw : List Char) : Bool := (raw.takeWhile (· != '#')).all Text.isBlank

theorem hasFields_iff_spaced : HasFields raw ws ↔ Text.Spaced (raw.takeWhile (· != '#')) ws := by
  constructor
  · rintro ⟨body, comment, rfl, hbody, hcomment, h⟩
    have hall : ∀ c ∈ body, (c != '#') = true := by
      intro c hc
      refine bne_iff_ne.mpr ?_
      rintro rfl
      exact hbody hc
    have hnone : comment.takeWhile (· != '#') = [] := by
      cases comment with
      | nil => rfl
      | cons c comment => simp [hcomment c rfl]
    rwa [List.takeWhile_append_of_pos hall, hnone, List.append_nil]
  · intro h
    refine ⟨_, raw.dropWhile (· != '#'), List.takeWhile_append_dropWhile.symm, ?_, ?_, h⟩
    · intro hmem
      exact absurd (List.mem_takeWhile_imp hmem) (by decide)
    · intro c hc
      have hnot := List.head?_dropWhile_not (· != '#') raw
      rw [hc] at hnot
      simpa using hnot

theorem hasFields_iff : HasFields raw ws ↔ Text.fields (uncommented raw) = ws := by
  rw [hasFields_iff_spaced, ← Text.fields_eq_iff, uncommented, Text.fields_trim]

theorem isBare_iff : isBare raw = true ↔ HasFields raw [] := by
  rw [hasFields_iff_spaced, isBare, List.all_eq_true]
  constructor
  · exact .nil
  · intro h
    generalize raw.takeWhile (· != '#') = body at h
    cases h with
    | nil h => exact h

@[simp]
theorem isEmpty_uncommented (raw : List Char) : (uncommented raw).isEmpty = isBare raw := by
  rw [Bool.eq_iff_iff, List.isEmpty_iff, uncommented, Text.trim_eq_nil_iff, isBare,
    List.all_eq_true]
  rfl

/-! ## Entries -/

/-- What can stand under a key. -/
inductive Entry where
  | shift (target : Nat)
  | reduce (rule : Nat)
  | accept
  | goto (state : Nat)
deriving DecidableEq, Repr

def Entry.action? : Entry → Option Action
  | .shift target => some (.shift target)
  | .reduce rule => some (.reduce rule)
  | .accept => some .accept
  | .goto _ => none

def Entry.goto? : Entry → Option Int
  | .goto state => some state
  | _ => none

namespace EntryForm

/-- How a form is written. -/
def chars : EntryForm → List Char
  | .shift digits => 's' :: digits
  | .reduce digits => 'r' :: digits
  | .accept => ['a', 'c', 'c']
  | .goto digits => digits

def digits? : EntryForm → Option (List Char)
  | .shift digits | .reduce digits | .goto digits => some digits
  | .accept => none

/-- The number of the form, if it has one, is in ASCII digits. -/
def Plain (form : EntryForm) : Prop := ∀ ds ∈ form.digits?, isNumeral ds = true

instance : (form : EntryForm) → Decidable form.Plain
  | .accept => .isTrue (by simp [Plain, digits?])
  | .shift ds | .reduce ds | .goto ds =>
    decidable_of_iff (isNumeral ds = true) (by simp [Plain, digits?])

/-- The entry that a form stands for, once its number is read. -/
inductive Means : EntryForm → Entry → Prop
  | shift {ds : List Char} {n : Nat} (h : Numeral ds n) : Means (.shift ds) (.shift n)
  | reduce {ds : List Char} {n : Nat} (h : Numeral ds n) : Means (.reduce ds) (.reduce n)
  | accept : Means .accept .accept
  | goto {ds : List Char} {n : Nat} (h : Numeral ds n) : Means (.goto ds) (.goto n)

theorem Means.unique {form : EntryForm} {e e' : Entry} (h : form.Means e) (h' : form.Means e') :
    e = e' := by
  cases h with
  | accept =>
    cases h'
    rfl
  | shift hn | reduce hn | goto hn =>
    cases h'
    next hn' => rw [hn.unique hn']

theorem isNumeral_iff {cs : List Char} :
    isNumeral cs = true ↔ cs ≠ [] ∧ ∀ c ∈ cs, c.isDigit = true := by
  simp [isNumeral]

theorem of?_eq_some {cs : List Char} {form : EntryForm} :
    of? cs = some form ↔ cs = form.chars ∧ form.Plain := by
  have hletter : ∀ {c : Char} {ds : List Char}, c.isDigit = false →
      isNumeral (c :: ds) = false := by
    intro c ds hc
    simp [isNumeral, hc]
  constructor
  · intro h
    unfold of? at h
    split at h
    · next hacc =>
      cases h
      exact ⟨hacc, by simp [Plain, digits?]⟩
    split at h
    · next hnumeral =>
      cases h
      exact ⟨rfl, by simpa [Plain, digits?] using hnumeral⟩
    split at h
    · next ds =>
      split at h
      · next hds =>
        cases h
        exact ⟨rfl, by simpa [Plain, digits?] using hds⟩
      · cases h
    · next ds =>
      split at h
      · next hds =>
        cases h
        exact ⟨rfl, by simpa [Plain, digits?] using hds⟩
      · cases h
    · cases h
  · rintro ⟨rfl, hplain⟩
    cases form with
    | accept => rfl
    | goto ds =>
      have hds : isNumeral ds = true := hplain ds rfl
      have hacc : ds ≠ ['a', 'c', 'c'] := by
        rintro rfl
        exact absurd hds (by decide)
      simp [of?, chars, hacc, hds]
    | shift ds | reduce ds =>
      have hds : isNumeral ds = true := hplain ds rfl
      simp [of?, chars, hletter, hds]

theorem means_iff {form : EntryForm} (h : form.Plain) :
    (∃ e, form.Means e) ↔ ∀ ds ∈ form.digits?, ds.length ≤ maxDigits := by
  constructor
  · rintro ⟨e, he⟩ ds hds
    cases he with
    | accept => cases hds
    | shift hn | reduce hn | goto hn =>
      cases hds
      exact hn.short
  · intro hlen
    have hread : ∀ ds ∈ form.digits?, ∃ n, Numeral ds n := by
      intro ds hds
      obtain ⟨hne, hall⟩ := isNumeral_iff.mp (h ds hds)
      exact Number.exists_numeral hne (fun c hc => Text.isDecimal_of_isDigit (hall c hc))
        (hlen ds hds)
    cases form with
    | accept => exact ⟨_, .accept⟩
    | shift ds | reduce ds | goto ds =>
      obtain ⟨n, hn⟩ := hread ds rfl
      exact ⟨_, by constructor; exact hn⟩

end EntryForm

/-! ## Lines -/

/-- What a line of a table says. -/
structure Row where
  state : Nat
  symbol : String
  entry : Entry
deriving DecidableEq, Repr

namespace Row

def key (row : Row) : Key := (row.state, row.symbol)

def action? (row : Row) : Option (Key × Action) := row.entry.action?.map (row.key, ·)

def goto? (row : Row) : Option (Key × Int) := row.entry.goto?.map (row.key, ·)

end Row

/-- A line of three fields, each of its form. The digits of the state may be of any kind, those of
the entry are ASCII. -/
structure Formed (raw state : List Char) (symbol : String) (form : EntryForm) : Prop where
  fields : HasFields raw [state, symbol.toList, form.chars]
  state_digits : ∀ c ∈ state, Text.isAnyDigit c = true
  symbol_name : Text.isName symbol.toList = true
  entry_plain : form.Plain

def Says (raw : List Char) (row : Row) : Prop :=
  ∃ state form, Formed raw state row.symbol form ∧ Numeral state row.state ∧ form.Means row.entry

variable {state : List Char} {symbol : String} {form : EntryForm} {row : Row}

theorem splitLine_eq_ok_iff {fields : Fields} : splitLine raw = .ok fields ↔
    Formed raw fields.state (String.ofList fields.symbol) fields.entry := by
  obtain ⟨state, symbol, form⟩ := fields
  constructor
  · intro h
    unfold splitLine at h
    split at h
    · next state' symbol' entry hfields =>
      split at h
      · cases h
      next hstate =>
      split at h
      · cases h
      next hsymbol =>
      split at h
      · next form' hform =>
        cases h
        obtain ⟨rfl, hplain⟩ := EntryForm.of?_eq_some.mp hform
        refine ⟨?_, by simpa using hstate, by simpa using hsymbol, hplain⟩
        rw [String.toList_ofList]
        exact hasFields_iff.mpr hfields
      · cases h
    · cases h
  · rintro ⟨hfields, hstate, hsymbol, hplain⟩
    dsimp only at hfields hstate hsymbol hplain
    rw [String.toList_ofList] at hfields hsymbol
    have hall : state.all Text.isAnyDigit = true := List.all_eq_true.mpr hstate
    have hform := EntryForm.of?_eq_some.mpr ⟨rfl, hplain⟩
    simp [splitLine, hasFields_iff.mp hfields, hall, hsymbol, hform]

theorem Formed.unique {state' : List Char} {symbol' : String} {form' : EntryForm}
    (h : Formed raw state symbol form) (h' : Formed raw state' symbol' form') :
    state = state' ∧ symbol = symbol' ∧ form = form' := by
  have hsplit : splitLine raw = .ok ⟨state, symbol.toList, form⟩ :=
    splitLine_eq_ok_iff.mpr (by simpa using h)
  have hsplit' : splitLine raw = .ok ⟨state', symbol'.toList, form'⟩ :=
    splitLine_eq_ok_iff.mpr (by simpa using h')
  rw [hsplit, Except.ok.injEq, Fields.mk.injEq, String.toList_inj] at hsplit'
  exact hsplit'

theorem Formed.not_isBare (h : Formed raw state symbol form) : isBare raw = false := by
  rw [← Bool.not_eq_true, isBare_iff, hasFields_iff, hasFields_iff.mp h.fields]
  simp

theorem Formed.state_ne_nil (h : Formed raw state symbol form) : state ≠ [] := by
  have hspaced := hasFields_iff_spaced.mp h.fields
  generalize raw.takeWhile (· != '#') = body at hspaced
  cases hspaced with
  | cons _ hw _ _ => exact hw.1

theorem Says.not_isBare (h : Says raw row) : isBare raw = false := by
  obtain ⟨state, form, hformed, -⟩ := h
  exact hformed.not_isBare

theorem Says.unique {row' : Row} (h : Says raw row) (h' : Says raw row') : row = row' := by
  obtain ⟨state, form, hformed, hstate, hentry⟩ := h
  obtain ⟨state', form', hformed', hstate', hentry'⟩ := h'
  obtain ⟨rfl, hsymbol, rfl⟩ := hformed.unique hformed'
  rw [Row.mk.injEq]
  exact ⟨hstate.unique hstate', hsymbol, hentry.unique hentry'⟩

/-! ## Reading a line -/

/-- A table with the entries of some lines, in their order. -/
def ofRows (rows : List Row) (name : String) (start : Int) : Table :=
  ⟨rows.filterMap Row.action?, rows.filterMap Row.goto?, start, name⟩

variable {rows : List Row} {name : String} {start : Int} {number n : Nat}

theorem keys_perm (rows : List Row) (name : String) (start : Int) :
    ((ofRows rows name start).actions.map Prod.fst ++
      (ofRows rows name start).gotos.map Prod.fst).Perm (rows.map Row.key) := by
  dsimp only [ofRows]
  induction rows with
  | nil => exact .nil
  | cons row rows ih =>
    cases hentry : row.entry with
    | goto n =>
      simp only [List.filterMap_cons, Row.action?, Row.goto?, hentry, Entry.action?, Entry.goto?,
        Option.map_none, Option.map_some, List.map_cons]
      exact List.perm_middle.trans (ih.cons _)
    | _ =>
      simp only [List.filterMap_cons, Row.action?, Row.goto?, hentry, Entry.action?, Entry.goto?,
        Option.map_none, Option.map_some, List.map_cons, List.cons_append]
      exact ih.cons _

theorem hasKey_ofRows {key : Key} :
    (ofRows rows name start).hasKey key = true ↔ key ∈ rows.map Row.key := by
  rw [← (keys_perm rows name start).mem_iff]
  simp only [hasKey, Bool.or_eq_true, List.any_eq_true, beq_iff_eq, List.mem_append, List.mem_map]

theorem readNumber_numeral {ds : List Char} (h : Numeral ds n) : readNumber ds = .ok (n : Int) := by
  rw [readNumber, Number.readInteger_numeral h]

theorem readNumber_unread {ds : List Char} (hne : ds ≠ [])
    (hdigits : ∀ c ∈ ds, Text.isAnyDigit c = true) (h : ∀ n, ¬ Numeral ds n) :
    ∃ fault, readNumber ds = .error (.number fault) := by
  have hrow : ∀ c ∈ ds, Text.isDecimal c = true ∨ Number.Valueless c :=
    fun c hc => Number.isDecimal_or_valueless_of_isAnyDigit (hdigits c hc)
  unfold readNumber
  split
  · next z hz =>
    obtain ⟨n, hn, -⟩ := (Number.readInteger_ok_iff hne hrow).mp hz
    exact absurd hn (h n)
  · next fault _ => exact ⟨fault, rfl⟩

theorem addEntry_means (h : form.Means row.entry) :
    (ofRows rows name start).addEntry row.key form = .ok (ofRows (rows ++ [row]) name start) := by
  obtain ⟨state, symbol, entry⟩ := row
  cases h with
  | accept => simp [addEntry, ofRows, Row.action?, Row.goto?, Entry.action?, Entry.goto?]
  | shift hn | reduce hn | goto hn =>
    simp [addEntry, readNumber_numeral hn, ofRows, Row.action?, Row.goto?, Entry.action?,
      Entry.goto?, Except.map]

theorem addEntry_unread {t : Table} {key : Key} (hplain : form.Plain)
    (h : ∀ e, ¬ form.Means e) : ∃ fault, t.addEntry key form = .error (.number fault) := by
  have hread : ∀ ds ∈ form.digits?, (∀ n, ¬ Numeral ds n) →
      ∃ fault, readNumber ds = .error (.number fault) := by
    intro ds hds hnone
    obtain ⟨hne, hall⟩ := EntryForm.isNumeral_iff.mp (hplain ds hds)
    refine readNumber_unread hne (fun c hc => ?_) hnone
    exact Text.isAnyDigit_iff.mpr (Or.inl (Text.isDecimal_of_isDigit (hall c hc)))
  cases form with
  | accept => exact absurd .accept (h _)
  | shift ds | reduce ds | goto ds =>
    obtain ⟨fault, hfault⟩ := hread ds rfl fun n hn => h _ (by constructor; exact hn)
    exact ⟨fault, by rw [addEntry, hfault]; rfl⟩

theorem addLine_bare {t : Table} (h : isBare raw = true) : t.addLine number raw = .ok t := by
  rw [addLine, isEmpty_uncommented, if_pos h]

theorem addLine_formed {t : Table} (h : Formed raw state symbol form) :
    t.addLine number raw =
      match readNumber state with
      | .error f => .error f
      | .ok z =>
        if t.hasKey (z, symbol) then .error (.line number (.conflict z symbol))
        else t.addEntry (z, symbol) form := by
  have hsplit : splitLine raw = .ok ⟨state, symbol.toList, form⟩ :=
    splitLine_eq_ok_iff.mpr (by simpa using h)
  rw [addLine, isEmpty_uncommented, if_neg (by simp [h.not_isBare]), hsplit]
  dsimp only
  cases readNumber state with
  | error f => rfl
  | ok z => simp only [String.ofList_toList]

theorem addLine_malformed {t : Table} (hbare : isBare raw = false)
    (h : ∀ state symbol form, ¬ Formed raw state symbol form) :
    ∃ fault, t.addLine number raw = .error (.line number fault) := by
  rw [addLine, isEmpty_uncommented, if_neg (by simp [hbare])]
  cases hsplit : splitLine raw with
  | error fault => exact ⟨fault, rfl⟩
  | ok fields => exact absurd (splitLine_eq_ok_iff.mp hsplit) (h _ _ _)

theorem addLine_conflict (h : Formed raw state symbol form) (hn : Numeral state n)
    (hkey : ((n : Int), symbol) ∈ rows.map Row.key) :
    (ofRows rows name start).addLine number raw = .error (.line number (.conflict n symbol)) := by
  rw [addLine_formed h, readNumber_numeral hn]
  exact if_pos (hasKey_ofRows.mpr hkey)

theorem addLine_row (h : Says raw row) (hkey : row.key ∉ rows.map Row.key) :
    (ofRows rows name start).addLine number raw = .ok (ofRows (rows ++ [row]) name start) := by
  obtain ⟨state, form, hformed, hstate, hentry⟩ := h
  rw [addLine_formed hformed, readNumber_numeral hstate, ← addEntry_means hentry]
  exact if_neg (mt hasKey_ofRows.mp hkey)

/-- A line of the right form with a number that has no value: its state, or else its entry, unless
the key is taken. -/
def Uncounted (rows : List Row) (raw : List Char) : Prop :=
  ∃ state symbol form, Formed raw state symbol form ∧
    (((∃ c ∈ state, Text.isDecimal c = false) ∨ maxDigits < state.length) ∨
      ∃ n : Nat, Numeral state n ∧ ((n : Int), symbol) ∉ rows.map Row.key ∧
        ∃ ds ∈ form.digits?, maxDigits < ds.length)

theorem addLine_uncounted (h : Uncounted rows raw) :
    ∃ fault, (ofRows rows name start).addLine number raw = .error (.number fault) := by
  obtain ⟨state, symbol, form, hformed, hstate | ⟨n, hn, hkey, ds, hds, hlen⟩⟩ := h
  · have hnone : ∀ n, ¬ Numeral state n := by
      intro n hn
      rcases hstate with ⟨c, hc, hdecimal⟩ | hlen
      · rw [hn.isDecimal c hc] at hdecimal
        cases hdecimal
      · exact absurd hn.short (by omega)
    obtain ⟨fault, hfault⟩ := readNumber_unread hformed.state_ne_nil hformed.state_digits hnone
    exact ⟨fault, by rw [addLine_formed hformed, hfault]⟩
  · have hnone : ∀ e, ¬ form.Means e := by
      intro e he
      have hshort := (EntryForm.means_iff hformed.entry_plain).mp ⟨e, he⟩ ds hds
      omega
    obtain ⟨fault, hfault⟩ : ∃ fault,
        (ofRows rows name start).addEntry (n, symbol) form = .error (.number fault) :=
      addEntry_unread hformed.entry_plain hnone
    refine ⟨fault, ?_⟩
    rw [addLine_formed hformed, readNumber_numeral hn, ← hfault]
    exact if_neg (mt hasKey_ofRows.mp hkey)

/-- A line that adds nothing to a table although it has something to say. -/
def Faulty (rows : List Row) (raw : List Char) : Prop :=
  isBare raw = false ∧ ∀ row, Says raw row → row.key ∈ rows.map Row.key

theorem addLine_faulty (h : Faulty rows raw) (hcounted : ¬ Uncounted rows raw) :
    ∃ fault, (ofRows rows name start).addLine number raw = .error (.line number fault) := by
  by_cases hform : ∃ state symbol form, Formed raw state symbol form
  · obtain ⟨state, symbol, form, hformed⟩ := hform
    have hstate : ∃ n, Numeral state n := by
      have hboth : (∀ c ∈ state, Text.isDecimal c = true) ∧ state.length ≤ maxDigits := by
        by_contra hnot
        refine hcounted ⟨state, symbol, form, hformed, Or.inl ?_⟩
        simpa [imp_iff_not_or, not_and_or] using hnot
      exact Number.exists_numeral hformed.state_ne_nil hboth.1 hboth.2
    obtain ⟨n, hn⟩ := hstate
    -- If the key were free, the entry could be read and the line would say a new row.
    have hkey : ((n : Int), symbol) ∈ rows.map Row.key := by
      by_contra hfree
      have hlen : ∀ ds ∈ form.digits?, ds.length ≤ maxDigits := by
        intro ds hds
        by_contra hlong
        exact hcounted ⟨state, symbol, form, hformed, Or.inr ⟨n, hn, hfree, ds, hds, by omega⟩⟩
      obtain ⟨e, he⟩ := (EntryForm.means_iff hformed.entry_plain).mpr hlen
      exact hfree (h.2 ⟨n, symbol, e⟩ ⟨state, form, hformed, hn, he⟩)
    exact ⟨_, addLine_conflict hformed hn hkey⟩
  · exact addLine_malformed h.1 fun state symbol form hf => hform ⟨state, symbol, form, hf⟩

theorem addLine_fails (h : Faulty rows raw) :
    ∃ fault, (ofRows rows name start).addLine number raw = .error fault := by
  by_cases huncounted : Uncounted rows raw
  · obtain ⟨fault, hfault⟩ := addLine_uncounted huncounted
    exact ⟨_, hfault⟩
  · obtain ⟨fault, hfault⟩ := addLine_faulty h huncounted
    exact ⟨_, hfault⟩

end Table

end ShiftReduce
