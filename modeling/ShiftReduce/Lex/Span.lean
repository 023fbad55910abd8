import ShiftReduce.Lex.Quoted
import ShiftReduce.Text.Digit
import ShiftReduce.Token

/-! # Spans of a text

A text is cut into spans. The span at the front is the longest one of any class, and where no class
matches it is a single character, or the rest of the line if a quote opens there.
-/

namespace ShiftReduce

/-- The classes of spans. -/
inductive Span.Class where
  | blank
  | comment
  | newline
  | real
  | integer
  | name
  | string (delim : Char)
  | punctuation (kind : String)
  | invalid
deriving DecidableEq, Repr

/-- A span and the text after it. -/
structure Span where
  kind : Span.Class
  text : List Char
  rest : List Char
deriving DecidableEq, Repr

namespace Span

/-- White space within a line. -/
def isSpace (c : Char) : Bool :=
  c == ' ' || c == '\t' || c == '\r' || c == '\x0b' || c == '\x0c'

def notNewline (c : Char) : Bool := c != '\n'

/-- The span of `lead` and of the characters of a class that follow it. -/
def run (kind : Class) (p : Char → Bool) (lead cs : List Char) : Span :=
  ⟨kind, lead ++ cs.takeWhile p, cs.dropWhile p⟩

/-! ## Numbers -/

/-- An exponent mark and a sign, if digits follow them. -/
def exponentMark? : List Char → Option (List Char × List Char)
  | e :: cs =>
    if e = 'e' ∨ e = 'E' then
      match cs with
      | s :: d :: r =>
        if (s = '+' ∨ s = '-') ∧ Text.isScanned d then some ([e, s], d :: r)
        else if Text.isScanned s then some ([e], s :: d :: r)
        else none
      | [d] => if Text.isScanned d then some ([e], [d]) else none
      | [] => none
    else none
  | [] => none

/-- A number after its first digits: a point or an exponent makes it a real one. -/
def number (digits rest : List Char) : Span :=
  match rest with
  | '.' :: cs =>
    let lead := digits ++ '.' :: cs.takeWhile Text.isScanned
    match exponentMark? (cs.dropWhile Text.isScanned) with
    | some (mark, r) => run .real Text.isScanned (lead ++ mark) r
    | none => ⟨.real, lead, cs.dropWhile Text.isScanned⟩
  | _ =>
    match exponentMark? rest with
    | some (mark, r) => run .real Text.isScanned (digits ++ mark) r
    | none => ⟨.integer, digits, rest⟩

/-! ## Strings -/

/-- The body of a string up to its closing quote, and what follows the quote. A backslash takes the
next character along, and no string goes past its line. -/
def closeQuote? (q : Char) : List Char → Option (List Char × List Char)
  | [] => none
  | '\\' :: c :: cs =>
    if c = '\n' then none else (closeQuote? q cs).map fun (b, r) => ('\\' :: c :: b, r)
  | c :: cs =>
    if c = q then some ([], cs)
    else if c = '\n' ∨ c = '\\' then none
    else (closeQuote? q cs).map fun (b, r) => (c :: b, r)

/-! ## The span at the front -/

def punctuation? (c : Char) : Option String := (punctuation.find? (·.1 == c)).map Prod.snd

/-- The span that starts with `c` and goes on into `cs`. -/
def first (c : Char) (cs : List Char) : Span :=
  if isSpace c then run .blank isSpace [c] cs
  else if c = '#' then run .comment notNewline [c] cs
  else if c = '\n' then ⟨.newline, [c], cs⟩
  else if Text.isScanned c then
    number (c :: cs.takeWhile Text.isScanned) (cs.dropWhile Text.isScanned)
  else if Text.isNameStart c then run .name Text.isNameChar [c] cs
  else if Quoted.isQuote c then
    match closeQuote? c cs with
    | some (body, rest) => ⟨.string c, c :: body ++ [c], rest⟩
    | none => run .invalid notNewline [c] cs
  else
    match punctuation? c with
    | some kind => ⟨.punctuation kind, [c], cs⟩
    | none => ⟨.invalid, [c], cs⟩

/-! ## Nothing is lost, and every span takes a character -/

@[simp]
theorem run_text_rest (kind : Class) (p : Char → Bool) (lead cs : List Char) :
    (run kind p lead cs).text ++ (run kind p lead cs).rest = lead ++ cs := by
  simp [run, List.takeWhile_append_dropWhile]

theorem exponentMark?_eq {cs mark r : List Char} (h : exponentMark? cs = some (mark, r)) :
    mark ++ r = cs := by
  unfold exponentMark? at h
  split at h
  · split at h
    · split at h
      · split at h
        · simp_all only [Option.some.injEq, Prod.mk.injEq]; simp [← h.1, ← h.2]
        · split at h
          · simp_all only [Option.some.injEq, Prod.mk.injEq]; simp [← h.1, ← h.2]
          · simp at h
      · split at h
        · simp_all only [Option.some.injEq, Prod.mk.injEq]; simp [← h.1, ← h.2]
        · simp at h
      · simp at h
    · simp at h
  · simp at h

theorem number_text_rest (digits rest : List Char) :
    (number digits rest).text ++ (number digits rest).rest = digits ++ rest := by
  unfold number
  split
  · next cs =>
    have hcs : cs.takeWhile Text.isScanned ++ cs.dropWhile Text.isScanned = cs :=
      List.takeWhile_append_dropWhile
    simp only
    split
    · next mark r h =>
      rw [run_text_rest, List.append_assoc, exponentMark?_eq h]
      simp [hcs]
    · simp [hcs]
  · split
    · next mark r h => rw [run_text_rest, List.append_assoc, exponentMark?_eq h]
    · rfl

theorem closeQuote?_eq {q : Char} {cs body rest : List Char}
    (h : closeQuote? q cs = some (body, rest)) : body ++ q :: rest = cs := by
  fun_induction closeQuote? q cs generalizing body rest with
  | case1 => simp at h
  | case2 => simp at h
  | case3 c cs hc ih =>
    obtain ⟨⟨b, r⟩, hb, he⟩ := Option.map_eq_some_iff.1 h
    simp only [Prod.mk.injEq] at he
    obtain ⟨rfl, rfl⟩ := he
    simp [ih hb]
  | case4 => simp_all
  | case5 => simp at h
  | case6 c cs _ _ _ ih =>
    obtain ⟨⟨b, r⟩, hb, he⟩ := Option.map_eq_some_iff.1 h
    simp only [Prod.mk.injEq] at he
    obtain ⟨rfl, rfl⟩ := he
    simp [ih hb]

@[simp]
theorem first_text_rest (c : Char) (cs : List Char) :
    (first c cs).text ++ (first c cs).rest = c :: cs := by
  unfold first
  split
  · simp [run_text_rest]
  split
  · simp [run_text_rest]
  split
  · simp
  split
  · simp [number_text_rest, List.takeWhile_append_dropWhile]
  split
  · simp [run_text_rest]
  split
  · split
    · next h => simp [closeQuote?_eq h]
    · simp [run_text_rest]
  · split <;> simp

theorem number_text_ne_nil {digits : List Char} (h : digits ≠ []) (rest : List Char) :
    (number digits rest).text ≠ [] := by
  unfold number
  split
  · simp only
    split <;> simp [run]
  · split <;> simp [run, h]

theorem first_text_ne_nil (c : Char) (cs : List Char) : (first c cs).text ≠ [] := by
  unfold first
  split
  · simp [run]
  split
  · simp [run]
  split
  · simp
  split
  · exact number_text_ne_nil (by simp) _
  split
  · simp [run]
  split
  · split <;> simp [run]
  · split <;> simp

theorem first_rest_lt (c : Char) (cs : List Char) : (first c cs).rest.length < (c :: cs).length := by
  have h := congrArg List.length (first_text_rest c cs)
  have := List.length_pos_iff.2 (first_text_ne_nil c cs)
  rw [List.length_append] at h
  omega

/-! ## Tokens -/

/-- The token of a span; blanks and comments have none. A string is written anew in its canonical
form, and everything else keeps its text. -/
def token? (s : Span) : Option Token :=
  let text := String.ofList s.text
  match s.kind with
  | .blank => none
  | .comment => none
  | .newline => some ⟨"nl", text⟩
  | .real => some ⟨"float", text⟩
  | .integer => some ⟨"integer", text⟩
  | .name => some ⟨(keywords.lookup text).getD "ident", text⟩
  | .string q =>
    let body := s.text.tail.dropLast
    some ⟨if q = '"' then "string_d" else "string_s",
      String.ofList (Quoted.encode [q] (Quoted.decode body))⟩
  | .punctuation kind => some ⟨kind, text⟩
  | .invalid => some ⟨"invalid", text⟩

end Span

/-- The spans of a text, in order. -/
def spans : List Char → List Span
  | [] => []
  | c :: cs => Span.first c cs :: spans (Span.first c cs).rest
termination_by cs => cs.length
decreasing_by exact Span.first_rest_lt c cs

/-- The tokens of a text. -/
def tokenize (text : String) : List Token := (spans text.toList).filterMap Span.token?

end ShiftReduce
