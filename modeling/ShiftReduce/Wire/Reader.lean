import ShiftReduce.Text.Utf8
import ShiftReduce.Wire.Line

/-! # Reading events from a stream of lines

A quoted value may hold line ends, so that an event can take several physical lines. The reader
joins lines until the quotes are closed.
-/

namespace ShiftReduce.Wire

/-! ## Physical lines -/

/-- The lines of a text, each with its line feed. `line` is the one begun, last character first. -/
def feedLinesFrom (line : List Char) : List Char → List (List Char)
  | [] => if line.isEmpty then [] else [line.reverse]
  | c :: cs =>
    if c = '\n' then (c :: line).reverse :: feedLinesFrom [] cs else feedLinesFrom (c :: line) cs

/-- Lines that end at a line feed only. -/
def feedLines (cs : List Char) : List (List Char) := feedLinesFrom [] cs

/-- The lines of a text that also ends them at a carriage return, with or without a line feed. -/
def anyLinesFrom (line : List Char) : List Char → List (List Char)
  | [] => if line.isEmpty then [] else [line.reverse]
  | '\r' :: '\n' :: cs => ('\n' :: '\r' :: line).reverse :: anyLinesFrom [] cs
  | c :: cs =>
    if c = '\n' ∨ c = '\r' then (c :: line).reverse :: anyLinesFrom [] cs
    else anyLinesFrom (c :: line) cs

def anyLines (cs : List Char) : List (List Char) := anyLinesFrom [] cs

/-- The complete lines of a text that goes on, and the line begun. A carriage return at the very end
completes no line, since a line feed could belong to it. -/
def completeLinesFrom (line : List Char) : List Char → List (List Char) × List Char
  | [] => ([], line.reverse)
  | ['\r'] => ([], ('\r' :: line).reverse)
  | '\r' :: '\n' :: cs =>
    let (ls, begun) := completeLinesFrom [] cs
    (('\n' :: '\r' :: line).reverse :: ls, begun)
  | c :: cs =>
    if c = '\n' ∨ c = '\r' then
      let (ls, begun) := completeLinesFrom [] cs
      ((c :: line).reverse :: ls, begun)
    else completeLinesFrom (c :: line) cs

def completeLines (cs : List Char) : List (List Char) × List Char := completeLinesFrom [] cs

/-- What a stream does after its last line. A failure that happens once is followed by more lines
and another ending. -/
inductive Ending where
  | clean
  | failsOnce (fault : Text.Utf8.Fault) (lines : List (List Char)) (ending : Ending)
  | fails (fault : Text.Utf8.Fault)
deriving DecidableEq, Repr

structure LineStream where
  lines : List (List Char)
  ending : Ending
deriving DecidableEq, Repr

/-! ## Files -/

/-- The most bytes that are read from a file at a time. -/
def chunkSize : Nat := 8192

/-- The bytes of a file as they are read. -/
def chunks : List UInt8 → List (List UInt8)
  | [] => []
  | b :: bs => (b :: bs).take chunkSize :: chunks ((b :: bs).drop chunkSize)
termination_by bytes => bytes.length
decreasing_by
  rw [List.length_drop]
  exact Nat.sub_lt (by simp) (by decide)

namespace LineStream

def ofText (text : String) : LineStream := ⟨feedLines text.toList, .clean⟩

/-- The stream of the chunks that are left of a file, behind a line that is begun and behind bytes
that wait for others. A chunk with a bad sequence is lost, and the line begun with it. Only a
carriage return at the end of that line stays, and the bytes that wait. -/
def ofChunks (line : List Char) (waiting : List UInt8) : List (List UInt8) → LineStream
  | [] =>
    let d := Text.Utf8.decode waiting
    match d.fault with
    | none => ⟨anyLines (line ++ d.chars), .clean⟩
    | some f => ⟨[], .fails f⟩
  | chunk :: rest =>
    match Text.Utf8.decodePart (waiting ++ chunk) with
    | .ok (chars, waiting) =>
      let (ls, begun) := completeLines (line ++ chars)
      let s := ofChunks begun waiting rest
      { s with lines := ls ++ s.lines }
    | .error f =>
      let s := ofChunks (if line.getLast? = some '\r' then ['\r'] else []) waiting rest
      ⟨[], .failsOnce f s.lines s.ending⟩

/-- The stream of a file. -/
def ofBytes (bytes : List UInt8) : LineStream := ofChunks [] [] (chunks bytes)

/-- What happens where a line is asked for and none is left. -/
def exhausted (s : LineStream) : Option Text.Utf8.Fault × LineStream :=
  match s.ending with
  | .clean => (none, s)
  | .failsOnce f lines ending => (some f, ⟨lines, ending⟩)
  | .fails f => (some f, s)

end LineStream

/-! ## Joining lines -/

/-- Whether every single quote of a text is closed. Outside quotes a backslash takes the next
character along. -/
def quotesClosed : List Char → Bool
  | [] => true
  | '\\' :: [] => true
  | '\\' :: _ :: cs => quotesClosed cs
  | c :: cs => if c = '\'' then inQuotes cs else quotesClosed cs
where
  inQuotes : List Char → Bool
    | [] => false
    | c :: cs => if c = '\'' then quotesClosed cs else inQuotes cs

/-- A line without the line feed at its end, and without the carriage return in front of that. -/
def stripEnd (cs : List Char) : List Char :=
  match cs.reverse with
  | '\n' :: '\r' :: r => r.reverse
  | '\n' :: r => r.reverse
  | _ => cs

/-- Joins lines to `raw` until its quotes are closed. The result says whether they are. -/
def join (raw : List Char) (lines : List (List Char)) : Bool × List Char × List (List Char) :=
  let body := stripEnd raw
  if quotesClosed body then (true, body, lines)
  else
    match lines with
    | [] => (false, body, [])
    | l :: ls => join (raw ++ l) ls

inductive ReadFault where
  | bytes (fault : Text.Utf8.Fault)
  | number (fault : Number.IntegerFault)
deriving DecidableEq, Repr

def isBlankLine (line : List Char) : Bool := line.all Text.isBlank

def decodeLine (body : List Char) : Except ReadFault (Option Event) :=
  match decodeChars body with
  | .ok e => .ok (some e)
  | .error f => .error (.number f)

/-- The next event of a stream, `none` at its end. -/
def LineStream.read (s : LineStream) : Except ReadFault (Option Event) × LineStream :=
  match s.lines.dropWhile isBlankLine with
  | [] =>
    match { s with lines := [] }.exhausted with
    | (none, s) => (.ok none, s)
    | (some f, s) => (.error (.bytes f), s)
  | raw :: lines =>
    match join raw lines with
    | (true, body, rest) => (decodeLine body, { s with lines := rest })
    | (false, body, _) =>
      match { s with lines := [] }.exhausted with
      | (none, s) => (decodeLine body, s)
      | (some f, s) => (.error (.bytes f), s)

end ShiftReduce.Wire
