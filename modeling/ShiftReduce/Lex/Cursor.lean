import ShiftReduce.Lex.Span

/-! # Reading tokens one at a time

A cursor stands in a text and scans no further than it is asked to. It can hold one token that was
looked at and not yet taken. A walk over the events of a cursor puts a mark in front of the first
token of each line, and one at the end if the line has changed since.
-/

namespace ShiftReduce

/-! ## The next token of a text -/

/-- The first token of a text, and the text after it. -/
def scanToken : List Char → Option (Token × List Char)
  | [] => none
  | c :: cs =>
    match (Span.first c cs).token? with
    | some t => some (t, (Span.first c cs).rest)
    | none => scanToken (Span.first c cs).rest
termination_by cs => cs.length
decreasing_by exact Span.first_rest_lt c cs

theorem scanToken_lt {cs r : List Char} {t : Token} (h : scanToken cs = some (t, r)) :
    r.length < cs.length := by
  fun_induction scanToken cs with
  | case1 => simp at h
  | case2 c cs u _ =>
    simp only [Option.some.injEq, Prod.mk.injEq] at h
    exact h.2 ▸ Span.first_rest_lt c cs
  | case3 c cs _ ih => exact Nat.lt_trans (ih h) (Span.first_rest_lt c cs)

/-- The line after a token. Only a newline token ends its line. -/
def Token.lineAfter (t : Token) (line : Int) : Int := if t.kind = "nl" then line + 1 else line

/-- The mark in front of a token, unless its line is the one marked last. -/
def markFor (marked line : Int) : List Event := if line = marked then [] else [.mark line]

/-- The events of a text that starts at `line`, where `marked` is the line marked last. -/
def eventsFrom (marked line : Int) (cs : List Char) : List Event :=
  match _h : scanToken cs with
  | none => markFor marked line
  | some (t, r) => markFor marked line ++ .token t :: eventsFrom line (t.lineAfter line) r
termination_by cs.length
decreasing_by exact scanToken_lt (by assumption)

def events (text : String) (line : Int := 1) : List Event := eventsFrom 0 line text.toList

/-! ## Cursors -/

/-- A place in a text: what is still to be scanned, the line there, and the token held back with the
line it stands on. -/
structure Cursor where
  rest : List Char
  line : Int
  held : Option (Token × Int)
deriving DecidableEq, Repr

namespace Cursor

def ofText (text : String) (line : Int := 1) : Cursor := ⟨text.toList, line, none⟩

/-- Scans the next token, whatever is held. -/
def scan (c : Cursor) : Option (Token × Int) × Cursor :=
  match scanToken c.rest with
  | none => (none, { c with rest := [] })
  | some (t, r) => (some (t, c.line), { c with rest := r, line := t.lineAfter c.line })

/-- The next token and its line: the one held, or else a new one. -/
def take (c : Cursor) : Option (Token × Int) × Cursor :=
  match c.held with
  | some item => (some item, { c with held := none })
  | none => c.scan

def next (c : Cursor) : Option Token × Cursor :=
  let (item, c) := c.take
  (item.map Prod.fst, c)

/-- Looks at the next token, and holds it. -/
def peek (c : Cursor) : Option Token × Cursor :=
  match c.held with
  | some (t, _) => (some t, c)
  | none =>
    let (item, c) := c.scan
    (item.map Prod.fst, { c with held := item })

end Cursor

/-! ## Walks over the events -/

/-- How far a walk has come: the line it marked last, the token whose mark was given already, and
whether it is over. -/
structure Walk where
  marked : Int
  owed : Option Token
  ended : Bool
deriving DecidableEq, Repr

namespace Walk

def start : Walk := ⟨0, none, false⟩

/-- The next event. A walk takes its tokens from the cursor, and once over it stays over. -/
def pull (w : Walk) (c : Cursor) : Option Event × Walk × Cursor :=
  if w.ended then (none, w, c)
  else
    match w.owed with
    | some t => (some (.token t), { w with owed := none }, c)
    | none =>
      match c.take with
      | (some (t, line), c) =>
        if line = w.marked then (some (.token t), w, c)
        else (some (.mark line), { w with marked := line, owed := some t }, c)
      | (none, c) =>
        if c.line = w.marked then (none, { w with ended := true }, c)
        else (some (.mark c.line), { w with marked := c.line, ended := true }, c)

end Walk

end ShiftReduce
