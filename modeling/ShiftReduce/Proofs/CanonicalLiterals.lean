import ShiftReduce.Proofs.LiteralValues

/-! # Canonical literals

The literals that are written are told by their form alone: no control character is in them, a
backslash takes every quote inside along, and only a few escapes occur. Each content has one such
literal. A literal of a text need not have this form, but the text of its token has.
-/

namespace ShiftReduce.Quoted

variable {q c d : Char} {e w front after : List Char}

/-! ## The form -/

/-- Whether a backslash at the end takes the next character along. -/
def escaping (cs : List Char) : Bool := cs.foldl (fun slash c => !slash && c == '\\') false

def IsControl (c : Char) : Prop := c.toNat < 0x20 ∨ c.toNat = 0x7F

instance : DecidablePred IsControl := fun c =>
  inferInstanceAs (Decidable (c.toNat < 0x20 ∨ c.toNat = 0x7F))

/-- Behind a backslash, `e` stands for `c`. A control character without a letter of its own has the
two hexadecimal digits of its code. -/
inductive Escape (q : Char) : Char → List Char → Prop
  | backslash : Escape q '\\' ['\\']
  | quote : Escape q q [q]
  | newline : Escape q '\n' ['n']
  | tab : Escape q '\t' ['t']
  | carriageReturn : Escape q '\r' ['r']
  | code {c : Char} (control : IsControl c) (other : c ≠ '\n' ∧ c ≠ '\t' ∧ c ≠ '\r') :
      Escape q c ['x', Nat.digitChar (c.toNat / 16), Nat.digitChar (c.toNat % 16)]

/-- `w` is a literal in canonical form, with `body` between its quotes. -/
structure Canonical (q : Char) (w body : List Char) : Prop where
  quoted : w = q :: body ++ [q]
  visible : ∀ c ∈ w, ¬ IsControl c
  closed : ∀ front after, body = front ++ q :: after → escaping front = true
  escapes : ∀ front after, body = front ++ '\\' :: after → escaping front = false →
    ∃ c e, Escape q c e ∧ e <+: after

theorem escaping_append (h : escaping front = false) (rest : List Char) :
    escaping (front ++ rest) = escaping rest := by
  unfold escaping at h ⊢
  rw [List.foldl_append, h]

theorem escaping_backslash (d : Char) (rest : List Char) :
    escaping ('\\' :: d :: rest) = escaping rest := rfl

theorem escaping_eq_false (h : ∀ d ∈ front, d ≠ '\\') : escaping front = false := by
  induction front with
  | nil => rfl
  | cons c cs ih =>
    obtain ⟨hc, hcs⟩ := List.forall_mem_cons.mp h
    rw [← ih hcs]
    simp [escaping, beq_false_of_ne hc]

/-! ## One character -/

/-- A character that is written as it is. -/
structure Plain (q c : Char) : Prop where
  ne_quote : c ≠ q
  ne_backslash : c ≠ '\\'
  visible : ¬ IsControl c

theorem plain_or_escape (q c : Char) : Plain q c ∨ ∃ e, Escape q c e := by
  by_cases h : ∃ e, Escape q c e
  · exact Or.inr h
  have hne : ∀ {d e}, Escape q d e → c ≠ d := by
    rintro d e he rfl
    exact h ⟨e, he⟩
  refine Or.inl ⟨hne .quote, hne .backslash, fun hc => h ⟨_, .code hc ?_⟩⟩
  exact ⟨hne .newline, hne .tab, hne .carriageReturn⟩

theorem IsControl.lt (h : IsControl c) : c.toNat < 128 := by
  unfold IsControl at h
  omega

theorem not_isControl_quote (hq : isQuote q = true) : ¬ IsControl q := by
  rcases quote_cases hq with rfl | rfl <;> decide

theorem Plain.encodeChar_eq (h : Plain q c) : encodeChar [q] c = [c] := by
  have hcontrol : ¬ (c.toNat < 0x20 ∨ c.toNat = 0x7F) := h.visible
  have hne : ∀ {d}, IsControl d → c ≠ d := by
    rintro d hd rfl
    exact h.visible hd
  unfold encodeChar
  rw [if_neg (by simpa using h.ne_quote.symm), if_neg h.ne_backslash, if_neg (hne (by decide)),
    if_neg (hne (by decide)), if_neg (hne (by decide)), if_neg hcontrol]

theorem Escape.encodeChar_eq (hq : isQuote q = true) (h : Escape q c e) :
    encodeChar [q] c = '\\' :: e := by
  cases h with
  | quote => simp [encodeChar]
  | code control other =>
    have hcontrol : c.toNat < 0x20 ∨ c.toNat = 0x7F := control
    have hquote : ¬ [q] = [c] := by
      intro h
      obtain rfl : q = c := by simpa using h
      exact not_isControl_quote hq control
    have hslash : c ≠ '\\' := by
      rintro rfl
      exact absurd control (by decide)
    unfold encodeChar
    rw [if_neg hquote, if_neg hslash, if_neg other.1, if_neg other.2.1, if_neg other.2.2,
      if_pos hcontrol, (hex_two control.lt).1]
  | _ => rcases quote_cases hq with rfl | rfl <;> rfl

theorem Escape.tail (hq : isQuote q = true) (h : Escape q c e) : ∀ d ∈ e.tail, Plain q d := by
  have hvisible : ∀ n < 16, ¬ IsControl (Nat.digitChar n) := by decide
  have hdigit : ∀ n < 16, Plain q (Nat.digitChar n) := by
    intro n hn
    rcases mem_stringItem.mp (digitChar_plain hq hn) with ⟨d, -, hd⟩ | ⟨d, ⟨hquote, hslash, -⟩, hd⟩
    · simp at hd
    · obtain rfl := List.singleton_inj.mp hd
      exact ⟨hquote, hslash, hvisible n hn⟩
  cases h with
  | code control _ =>
    have := control.lt
    simp only [List.tail_cons, List.mem_cons, List.not_mem_nil, or_false, forall_eq_or_imp,
      forall_eq]
    exact ⟨hdigit _ (by omega), hdigit _ (by omega)⟩
  | _ => simp

theorem Escape.visible (hq : isQuote q = true) (h : Escape q c e) : ∀ d ∈ e, ¬ IsControl d := by
  have htail := h.tail hq
  cases h with
  | quote => simpa using not_isControl_quote hq
  | code =>
    refine List.forall_mem_cons.mpr ⟨by decide, ?_⟩
    intro d hd
    exact (htail d hd).visible
  | _ => exact List.forall_mem_singleton.mpr (by decide)

theorem escaping_encodeChar (hq : isQuote q = true) (c : Char) :
    escaping (encodeChar [q] c) = false := by
  rcases plain_or_escape q c with hc | ⟨e, he⟩
  · rw [hc.encodeChar_eq]
    exact escaping_eq_false (by simpa using hc.ne_backslash)
  · rw [he.encodeChar_eq hq]
    have htail := he.tail hq
    cases e with
    | nil => cases he
    | cons d e =>
      rw [escaping_backslash]
      exact escaping_eq_false fun d hd => (htail d hd).ne_backslash

/-! ## Written literals have the form -/

/-- A character in what is written for `c` stands for itself, or a backslash takes it along, or it
is the backslash of the escape. -/
theorem encodeChar_cut {pre post : List Char} (hq : isQuote q = true)
    (h : encodeChar [q] c = pre ++ d :: post) :
    Plain q d ∨ escaping pre = true ∨ d = '\\' ∧ Escape q c post := by
  rcases plain_or_escape q c with hc | ⟨e, he⟩
  · have hd : d ∈ [c] := by
      rw [← hc.encodeChar_eq, h]
      simp
    rw [List.mem_singleton.mp hd]
    exact Or.inl hc
  · rw [he.encodeChar_eq hq] at h
    cases pre with
    | nil =>
      cases h
      exact Or.inr (Or.inr ⟨rfl, he⟩)
    | cons b pre =>
      obtain ⟨rfl, rfl⟩ := List.cons.inj h
      cases pre with
      | nil => exact Or.inr (Or.inl rfl)
      | cons b pre => exact Or.inl (he.tail hq d (by simp))

theorem encoded_cut {content : List Char} (hq : isQuote q = true)
    (h : content.flatMap (encodeChar [q]) = front ++ d :: after) :
    Plain q d ∨ escaping front = true ∨ d = '\\' ∧ ∃ c e, Escape q c e ∧ e <+: after := by
  induction content generalizing front with
  | nil => simp at h
  | cons c cs ih =>
    have hc := escaping_encodeChar hq c
    rw [List.flatMap_cons] at h
    rcases List.append_eq_append_iff.mp h with ⟨start, rfl, hcs⟩ | ⟨post, hfront, hpost⟩
    · rw [escaping_append hc]
      exact ih hcs
    rcases List.cons_eq_append_iff.mp hpost with ⟨rfl, hcs⟩ | ⟨post, rfl, rfl⟩
    · -- What is written for `c` ends right in front of `d`.
      rw [List.append_nil] at hfront
      rw [← hfront, hc]
      exact @ih [] hcs
    · rcases encodeChar_cut hq hfront with hd | hopen | ⟨hd, he⟩
      · exact Or.inl hd
      · exact Or.inr (Or.inl hopen)
      · exact Or.inr (Or.inr ⟨hd, c, post, he, List.prefix_append _ _⟩)

theorem canonical_encode (hq : isQuote q = true) (content : List Char) :
    Canonical q (encode [q] content) (content.flatMap (encodeChar [q])) where
  quoted := by simp [encode]
  visible := by
    intro d hd
    simp only [encode, List.mem_append, List.mem_singleton, List.mem_flatMap] at hd
    rcases hd with (rfl | ⟨c, -, hd⟩) | rfl
    · exact not_isControl_quote hq
    · rcases plain_or_escape q c with hc | ⟨e, he⟩
      · rw [hc.encodeChar_eq, List.mem_singleton] at hd
        exact hd ▸ hc.visible
      · rw [he.encodeChar_eq hq] at hd
        rcases List.mem_cons.mp hd with rfl | hd
        · decide
        · exact he.visible hq d hd
    · exact not_isControl_quote hq
  closed := by
    intro front after h
    rcases encoded_cut hq h with hplain | hfront | ⟨rfl, -⟩
    · exact absurd rfl hplain.ne_quote
    · exact hfront
    · exact absurd hq (by decide)
  escapes := by
    intro front after h hfront
    rcases encoded_cut hq h with hplain | hopen | ⟨-, he⟩
    · exact absurd rfl hplain.ne_backslash
    · rw [hfront] at hopen
      cases hopen
    · exact he

/-! ## What has the form is written -/

theorem Canonical.rest {rest : List Char} (front : List Char) (h : Canonical q w (front ++ rest))
    (hfront : escaping front = false) : Canonical q (q :: rest ++ [q]) rest where
  quoted := rfl
  visible := by
    intro c hc
    apply h.visible
    rw [h.quoted]
    simp only [List.cons_append, List.mem_cons, List.mem_append] at hc ⊢
    tauto
  closed := by
    rintro start after rfl
    rw [← escaping_append hfront]
    exact h.closed _ after (by simp)
  escapes := by
    rintro start after rfl hstart
    rw [← escaping_append hfront] at hstart
    exact h.escapes _ after (by simp) hstart

theorem Canonical.exists_content {w body : List Char} (hq : isQuote q = true)
    (h : Canonical q w body) : ∃ content : List Char, content.flatMap (encodeChar [q]) = body := by
  cases body with
  | nil => exact ⟨[], rfl⟩
  | cons c cs =>
    by_cases hc : c = '\\'
    · -- An escape can take several characters off the front, so the recursion is on the length.
      subst hc
      obtain ⟨d, e, he, rest, rfl⟩ := h.escapes [] cs rfl rfl
      have hescape : escaping ('\\' :: e) = false := by
        rw [← he.encodeChar_eq hq]
        exact escaping_encodeChar hq d
      obtain ⟨content, rfl⟩ := Canonical.exists_content hq (Canonical.rest ('\\' :: e) h hescape)
      exact ⟨d :: content, by rw [List.flatMap_cons, he.encodeChar_eq hq, List.cons_append]⟩
    · have hplain : Plain q c := by
        refine ⟨?_, hc, h.visible c (by simp [h.quoted])⟩
        rintro rfl
        cases h.closed [] cs rfl
      have hescape : escaping [c] = false := escaping_eq_false (by simpa using hc)
      obtain ⟨content, rfl⟩ := Canonical.exists_content hq (Canonical.rest [c] h hescape)
      exact ⟨c :: content, by rw [List.flatMap_cons, hplain.encodeChar_eq, List.singleton_append]⟩
termination_by body.length

/-! ## Contents and their literals -/

theorem quote_eq (q : Char) (s : String) :
    quote (String.singleton q) s = (literal q s.toList).text := by
  simp [quote, literal]

/-- A content is read back from its literal, and the literals of the contents are just those in
canonical form. The token of a literal in a text has the content of that literal, and its text is
the canonical literal of this content. -/
theorem literals_canonical (q : Char) (hq : isQuote q = true) :
    (∀ s : String, content (quote (String.singleton q) s) = .ok s ∧
        ∃ body, Canonical q (quote (String.singleton q) s).toList body) ∧
      (∀ w body, Canonical q w body → ∃ s, (quote (String.singleton q) s).toList = w) ∧
      ∀ text : String, ∀ sp ∈ spans text.toList, sp.text ∈ quotedBy q →
        ∃ body v s, sp.text = q :: body ++ [q] ∧
          sp.token? = some ⟨if q = '"' then "string_d" else "string_s", v⟩ ∧
          content v = .ok s ∧ s = String.ofList (decode body) ∧
          v.toList.head? = some q ∧ quote (String.singleton q) s = v := by
  have hcontent : ∀ s, content (quote (String.singleton q) s) = .ok s := by
    intro s
    rw [quote_eq]
    exact content_literal hq s
  have htext : ∀ s, (quote (String.singleton q) s).toList = encode [q] s.toList := by
    intro s
    rw [quote_eq, literal, String.toList_ofList]
  refine ⟨fun s => ⟨hcontent s, ?_⟩, ?_, ?_⟩
  · rw [htext]
    exact ⟨_, canonical_encode hq s.toList⟩
  · intro w body h
    obtain ⟨content, rfl⟩ := h.exists_content hq
    refine ⟨String.ofList content, ?_⟩
    rw [htext, String.toList_ofList, h.quoted]
    rfl
  · intro text sp hsp hw
    obtain ⟨body, hbody, htoken⟩ := literal_of_span hq hsp hw
    have hquote : quote (String.singleton q) (String.ofList (decode body)) =
        (literal q (decode body)).text := by
      rw [quote_eq, String.toList_ofList]
    refine ⟨body, (literal q (decode body)).text, String.ofList (decode body), hbody, htoken,
      ?_, rfl, ?_, hquote⟩
    · rw [← hquote]
      exact hcontent _
    · rw [← hquote, htext]
      rfl

/-- A backslash in a content is kept apart from what follows it, be it the digits of a code or the
quote that closes the literal. -/
theorem literals_canonical_backslashes :
    isQuote '\'' = true ∧ content (quote "'" "\\x41'\x01\\") = .ok "\\x41'\x01\\" ∧
      Canonical '\'' "'\\x01'".toList "\\x01".toList ∧
      (∃ s, (quote "'" s).toList = "'\\x01'".toList) ∧
      ∃ sp ∈ spans "set a = '\\q\\x09\\\\x41\\\\';".toList, sp.text ∈ quotedBy '\'' ∧
        sp.token? = some ⟨"string_s", "'q\\t\\\\x41\\\\'"⟩ ∧
        content "'q\\t\\\\x41\\\\'" = .ok "q\t\\x41\\" ∧
        quote "'" "q\t\\x41\\" = "'q\\t\\\\x41\\\\'" := by
  obtain ⟨hwritten, hform, htokens⟩ := literals_canonical '\'' rfl
  have hcanonical : Canonical '\'' "'\\x01'".toList "\\x01".toList := canonical_encode rfl ['\x01']
  refine ⟨rfl, (hwritten "\\x41'\x01\\").1, hcanonical, hform _ _ hcanonical, ?_⟩
  have hmem : (⟨.string '\'', "'\\q\\x09\\\\x41\\\\'".toList, [';']⟩ : Span) ∈
      spans "set a = '\\q\\x09\\\\x41\\\\';".toList := by decide +kernel
  have hclose : Span.closeQuote? '\'' "\\q\\x09\\\\x41\\\\'".toList =
      some ("\\q\\x09\\\\x41\\\\".toList, []) := by decide
  have hword : "'\\q\\x09\\\\x41\\\\'".toList ∈ quotedBy '\'' :=
    mem_quotedBy.mpr ⟨_, rfl, items_of_closeQuote? hclose⟩
  obtain ⟨body, v, s, hbody, htoken, hv, hs, -, hquote⟩ := htokens _ _ hmem hword
  have hbody : "\\q\\x09\\\\x41\\\\".toList = body :=
    List.append_cancel_right (List.cons.inj hbody).2
  have hdecode : decode "\\q\\x09\\\\x41\\\\".toList = "q\t\\x41\\".toList := by decide
  have hquoted : quote "'" "q\t\\x41\\" = "'q\\t\\\\x41\\\\'" := by decide +kernel
  rw [← hbody, hdecode, String.ofList_toList] at hs
  rw [hs] at hv hquote
  obtain rfl := hquote.symm.trans hquoted
  exact ⟨_, hmem, hword, htoken, hv, hquote⟩

end ShiftReduce.Quoted
