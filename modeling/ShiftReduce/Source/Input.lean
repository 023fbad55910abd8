import ShiftReduce.File
import ShiftReduce.Lex.Cursor
import ShiftReduce.Wire.Reader

/-! # Inputs

An input gives events: from a text by scanning it, from lines of encoded events, or from a list. It
is opened when its turn comes and closed when it is used up. Every event that is read makes what is
left smaller (`weight_read_lt`).
-/

namespace ShiftReduce

inductive TextOrigin where
  | memory (text : String)
  | file (file : File)

/-- Where the events of an input come from, and how far they have been read. -/
inductive Feed where
  | text (origin : TextOrigin) (walk : Walk) (cursor : Cursor)
  | wire (origin : Option File) (stream : Wire.LineStream)
  | tokens (events rest : List Event)
  | unreadable

structure Input where
  name : String
  /-- The line of the last mark. -/
  line : Int := 0
  isOpen : Bool := false
  /-- Tells the inputs of a stream apart. -/
  serial : Nat := 0
  feed : Feed

namespace Input

/-! ## Making inputs -/

/-- The first name that is not empty. -/
def nameFrom (name path : Option String) (fallback : String) : String :=
  (([name, path].filterMap id).find? (· ≠ "")).getD fallback

def ofFeed (name : String) (feed : Feed) : Input := { name := name, feed := feed }

/-- A text that is scanned. A text at hand goes before a file. -/
def text (name : Option String) (file : Option File) (text : Option String) :
    Except Failure Input :=
  let named (o : TextOrigin) : Input :=
    ofFeed (nameFrom name (file.map File.path) "<string>") (.text o .start (.ofText ""))
  match text, file with
  | some t, _ => .ok (named (.memory t))
  | none, some f => .ok (named (.file f))
  | none, none => .error (.value .noText)

/-- Encoded events. Lines at hand go before a file. -/
def wire (name : Option String) (file : Option File) (text : Option String) :
    Except Failure Input :=
  let named (o : Option File) (s : Wire.LineStream) : Input :=
    ofFeed (nameFrom name (file.map File.path) "<stream>") (.wire o s)
  match text, file with
  | some t, _ => .ok (named none (.ofText t))
  | none, some f => .ok (named (some f) ⟨[], .clean⟩)
  | none, none => .error (.value .noStream)

def tokens (events : List Event) (name : String := "<tokens>") : Input :=
  ofFeed name (.tokens events events)

def unreadable (name : String) : Input := ofFeed name .unreadable

/-- A file, scanned or decoded. -/
def ofFile (file : File) (encoded : Bool) : Input :=
  if encoded then
    ofFeed (nameFrom none (some file.path) "<stream>") (.wire (some file) ⟨[], .clean⟩)
  else
    ofFeed (nameFrom none (some file.path) "<string>") (.text (.file file) .start (.ofText ""))

/-! ## Opening and closing -/

def TextOrigin.content : TextOrigin → Except Failure String
  | .memory text => .ok text
  | .file file => fileText .readInput file.path file.bytes

/-- The lines of a file of encoded events. -/
def fileLines (file : File) : Except Failure Wire.LineStream :=
  if hasNul file.path then .error (.value .nulInPath)
  else
    match file.bytes with
    | .error f => .error (.input ⟨.openInput, file.path, .disk f, some file.path⟩)
    | .ok bytes => .ok (.ofBytes bytes)

/-- A text and a list start again from the front. A file of encoded events goes on where it is if it
is open already, and lines at hand go on in any case. -/
def openFeed (isOpen : Bool) : Feed → Except Failure Feed
  | .text origin _ _ =>
    (TextOrigin.content origin).map fun t => .text origin .start (.ofText t)
  | .wire (some file) stream =>
    if isOpen then .ok (.wire (some file) stream)
    else (fileLines file).map fun s => .wire (some file) s
  | .wire none stream => .ok (.wire none stream)
  | .tokens events _ => .ok (.tokens events events)
  | .unreadable => .ok .unreadable

/-- Opens an input. If that fails, it stays as it was. -/
def opened (i : Input) : Except Failure Input :=
  (openFeed i.isOpen i.feed).map fun feed => { i with feed := feed, isOpen := true }

def closed (i : Input) : Input := { i with isOpen := false }

/-! ## Reading -/

def wireFailure (i : Input) (file : Option File) : Wire.ReadFault → Failure
  | .bytes f => .input ⟨.readInput, i.name, .bytes f, file.map File.path⟩
  | .number f => .value (.number f)

/-- The next event of an input, `none` at its end. Only a list can be read without being open. -/
def read (i : Input) : Except Failure (Option Event) × Input :=
  match i.feed with
  | .text origin walk cursor =>
    if i.isOpen then
      let (e, walk, cursor) := walk.pull cursor
      (.ok e, { i with feed := .text origin walk cursor })
    else (.error (.misuse .closedText), i)
  | .wire origin stream =>
    if i.isOpen then
      let (r, stream) := stream.read
      let j := { i with feed := .wire origin stream }
      match r with
      | .ok e => (.ok e, j)
      | .error f => (.error (i.wireFailure origin f), j)
    else (.error (.misuse .closedWire), i)
  | .tokens events rest => (.ok rest.head?, { i with feed := .tokens events rest.tail })
  | .unreadable => (.error (.misuse .unreadable), i)

/-! ## Reading comes to an end -/

end Input

/-- A bound on the events that a walk over a cursor still has. -/
def Walk.weight (w : Walk) (c : Cursor) : Nat :=
  2 * c.rest.length + (if c.held.isSome then 2 else 0) + (if w.owed.isSome then 1 else 0) +
    if w.ended then 0 else 1

theorem Cursor.take_weight {c d : Cursor} {item : Token × Int} (h : c.take = (some item, d)) :
    2 * d.rest.length + (if d.held.isSome then 2 else 0) + 2 ≤
      2 * c.rest.length + (if c.held.isSome then 2 else 0) := by
  unfold Cursor.take at h
  split at h
  · next hc =>
    simp only [Prod.mk.injEq] at h
    simp [← h.2, hc]
  · next hc =>
    unfold Cursor.scan at h
    split at h
    · simp at h
    · next t r hs =>
      simp only [Prod.mk.injEq] at h
      have := scanToken_lt hs
      simp only [← h.2, hc]
      simp
      omega

theorem Cursor.take_none_weight {c d : Cursor} (h : c.take = (none, d)) :
    2 * d.rest.length + (if d.held.isSome then 2 else 0) ≤
      2 * c.rest.length + (if c.held.isSome then 2 else 0) := by
  unfold Cursor.take at h
  split at h
  · simp at h
  · next hc =>
    unfold Cursor.scan at h
    split at h
    · simp only [Prod.mk.injEq] at h
      simp [← h.2, hc]
    · simp at h

theorem Walk.weight_pull_lt {w v : Walk} {c d : Cursor} {e : Event}
    (h : w.pull c = (some e, v, d)) : v.weight d < w.weight c := by
  unfold Walk.pull at h
  split at h
  · simp at h
  · next hended =>
    split at h
    · next t ho =>
      simp only [Prod.mk.injEq] at h
      obtain ⟨_, rfl, rfl⟩ := h
      simp [Walk.weight, ho]
    · next ho =>
      split at h
      · next t line c' ht =>
        have hw := Cursor.take_weight ht
        split at h <;>
        · simp only [Prod.mk.injEq] at h
          obtain ⟨_, rfl, rfl⟩ := h
          simp only [Walk.weight, ho] at *
          simp
          omega
      · next c' ht =>
        have hw := Cursor.take_none_weight ht
        split at h
        · simp at h
        · simp only [Prod.mk.injEq] at h
          obtain ⟨_, rfl, rfl⟩ := h
          simp only [Walk.weight, ho, hended] at *
          simp
          omega

theorem Wire.join_length (raw : List Char) (lines : List (List Char)) :
    (Wire.join raw lines).2.2.length ≤ lines.length := by
  induction lines generalizing raw with
  | nil => unfold Wire.join; simp only; split <;> simp
  | cons l ls ih =>
    unfold Wire.join
    simp only
    split
    · simp
    · exact Nat.le_succ_of_le (ih _)

theorem Wire.LineStream.eq_of_exhausted {s t : Wire.LineStream} (h : s.exhausted = (none, t)) :
    t = s := by
  unfold Wire.LineStream.exhausted at h
  split at h <;> simp_all

theorem Wire.LineStream.read_lt {s t : Wire.LineStream} {e : Event}
    (h : s.read = (.ok (some e), t)) : t.lines.length < s.lines.length := by
  have hd : (s.lines.dropWhile Wire.isBlankLine).length ≤ s.lines.length :=
    (List.dropWhile_suffix _).length_le
  unfold Wire.LineStream.read at h
  split at h
  · split at h <;> simp at h
  · next raw lines hl =>
    rw [hl, List.length_cons] at hd
    have hj := Wire.join_length raw lines
    split at h
    · next hb =>
      simp only [Prod.mk.injEq] at h
      rw [hb] at hj
      simp only [← h.2]
      simp only at hj
      omega
    · split at h
      · next s' he =>
        simp only [Prod.mk.injEq] at h
        rw [← h.2, Wire.LineStream.eq_of_exhausted he, List.length_nil]
        omega
      · simp at h

namespace Input

/-- A bound on the events that an input still has. -/
def weight (i : Input) : Nat :=
  match i.feed with
  | .text _ walk cursor => walk.weight cursor
  | .wire _ stream => stream.lines.length
  | .tokens _ rest => rest.length
  | .unreadable => 0

theorem weight_read_lt {i j : Input} {e : Event} (h : i.read = (.ok (some e), j)) :
    j.weight < i.weight := by
  unfold read at h
  split at h
  · next origin walk cursor hf =>
    split at h
    · rcases hp : walk.pull cursor with ⟨ev, v, d⟩
      simp only [hp, Prod.mk.injEq, Except.ok.injEq] at h
      obtain ⟨rfl, rfl⟩ := h
      simpa [weight, hf] using Walk.weight_pull_lt hp
    · simp at h
  · next origin stream hf =>
    split at h
    · rcases hp : stream.read with ⟨r, t⟩
      simp only [hp] at h
      cases r with
      | error f => simp at h
      | ok ev =>
        simp only [Prod.mk.injEq, Except.ok.injEq] at h
        obtain ⟨rfl, rfl⟩ := h
        simpa [weight, hf] using Wire.LineStream.read_lt hp
    · simp at h
  · next events rest hf =>
    simp only [Prod.mk.injEq, Except.ok.injEq] at h
    obtain ⟨h1, rfl⟩ := h
    cases rest with
    | nil => simp at h1
    | cons x xs => simp [weight, hf]
  · simp at h

/-- The next token of an input. The marks in front of it set the line. -/
def readToken (i : Input) : Except Failure (Option Token) × Input :=
  match _h : i.read with
  | (.error f, j) => (.error f, j)
  | (.ok none, j) => (.ok none, j)
  | (.ok (some (.token t)), j) => (.ok (some t), j)
  | (.ok (some (.mark line)), j) => readToken { j with line := line }
termination_by i.weight
decreasing_by exact weight_read_lt (i := i) (j := j) _h

end Input

end ShiftReduce
