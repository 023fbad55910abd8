import ShiftReduce.Source.Input

/-! # Token streams

A stream reads its inputs one after the other, the one pushed last first. Each input is opened when
its turn comes, and where it ends it is closed and one end token is given. Tokens can be put back,
and the last one put back is the next one to come. The location is that of the token given last.
-/

namespace ShiftReduce

structure Stream where
  /-- The inputs still to be read, the next one first. -/
  pending : List Input
  /-- The inputs that are done with. -/
  retired : List Input := []
  /-- Tokens put back, the next one first. -/
  queue : List (Token × Location) := []
  location : Location := ⟨"<input>", 0⟩

namespace Stream

/-- A stream of inputs that are read in the given order. -/
def ofInputs (inputs : List Input) : Stream :=
  { pending := inputs.zipIdx.map fun (i, k) => { i with serial := k } }

/-- The number of inputs still to be read. -/
def depth (s : Stream) : Nat := s.pending.length

/-- Puts an input in front of all others. -/
def push (s : Stream) (i : Input) : Stream :=
  let serial := s.pending.length + s.retired.length
  { s with pending := { i with serial := serial } :: s.pending }

/-- Puts a token back, at a given location or at the present one. -/
def pushBack (s : Stream) (t : Token) (location : Option Location := none) : Stream :=
  { s with queue := (t, location.getD s.location) :: s.queue }

/-- An input that is open, made so if it was not. -/
def ensureOpen (i : Input) : Except Failure Input := if i.isOpen then .ok i else i.opened

/-- The next token, `none` when all inputs are used up. -/
def next (s : Stream) : Except Failure (Option Token) × Stream :=
  match s.queue with
  | (t, location) :: queue => (.ok (some t), { s with queue := queue, location := location })
  | [] =>
    match s.pending with
    | [] => (.ok none, s)
    | i :: rest =>
      match ensureOpen i with
      | .error f => (.error f, s)
      | .ok i =>
        match i.readToken with
        | (.error f, i) => (.error f, { s with pending := i :: rest })
        | (.ok (some t), i) =>
          (.ok (some t), { s with pending := i :: rest, location := ⟨i.name, i.line⟩ })
        | (.ok none, i) =>
          (.ok (some .eof),
            { s with
              pending := rest
              retired := i.closed :: s.retired
              location := ⟨i.name, i.line⟩ })

/-- Looks at the next token: takes it and puts it back. -/
def peek (s : Stream) : Except Failure (Option Token) × Stream :=
  match s.next with
  | (.ok (some t), s) => (.ok (some t), s.pushBack t)
  | r => r

/-- Closes and drops all inputs, and drops the tokens put back. -/
def close (s : Stream) : Stream :=
  { s with pending := [], retired := s.pending.map Input.closed ++ s.retired, queue := [] }

/-! ## The inputs of a stream -/

/-- All inputs there have been, in the order in which they came. -/
def inputs (s : Stream) : List Input :=
  let all := s.pending ++ s.retired
  (List.range all.length).filterMap fun k => all.find? (·.serial == k)

/-- Replaces the input with the same serial number. -/
def update (s : Stream) (i : Input) : Stream :=
  let set (j : Input) := if j.serial == i.serial then i else j
  { s with pending := s.pending.map set, retired := s.retired.map set }

end Stream

end ShiftReduce
