import ShiftReduce.Proofs.Agreement
import ShiftReduce.Proofs.NestingLanguage
import ShiftReduce.Proofs.TextEvents
import ShiftReduce.Proofs.WireStream

/-! # Parsing through the wire

The events of a text can be written as lines and read back. A machine that reads them so does just
what it does on the text itself.
-/

namespace ShiftReduce

open Wire (encodeChars Writable Written Reads BlankLines)

/-! ## Written events -/

/-- A number with too many digits is not written. -/
def Event.isWritten : Event → Bool
  | .mark line => (toString line).length ≤ Number.maxDigits
  | .token _ => true

/-- The events of a text, each on a line of its own. -/
def dump? (text : String) : Option String :=
  if (events text).all Event.isWritten then
    some (String.ofList ((events text).flatMap fun e => encodeChars e ++ ['\n']))
  else none

theorem writable_of_mem_events {text : String} {e : Event} (he : e ∈ events text)
    (hw : e.isWritten = true) : Writable e := by
  cases e with
  | token t => exact (token_of_mem_eventsFrom he).1
  | mark line =>
    have hbounds := mark_of_mem_eventsFrom he
    exact ⟨by omega, of_decide_eq_true hw⟩

theorem written_lines (lone : Bool) {es : List Event} (h : ∀ e ∈ es, Writable e) :
    Written lone es (es.flatMap fun e => encodeChars e ++ ['\n']) := by
  induction es with
  | nil => exact .nil (by simp)
  | cons e es ih =>
    obtain ⟨he, hes⟩ := List.forall_mem_cons.mp h
    have hblank : BlankLines lone [] := ⟨by simp, by simp⟩
    have hcons := Written.cons hblank he (Or.inl rfl) (ih hes)
    rwa [List.nil_append] at hcons

theorem reads_dump {text w : String} (h : dump? text = some w) :
    Reads (.ofText w) (events text) := by
  unfold dump? at h
  split at h
  · next hall =>
    rw [List.all_eq_true] at hall
    obtain rfl := Option.some.inj h
    have hwritten := written_lines false fun e he => writable_of_mem_events he (hall e he)
    have hreads := Wire.splits_feedLines.reads hwritten
    rwa [Wire.LineStream.ofText, String.toList_ofList]
  · cases h

theorem dump?_isSome {text : String} (h : text.toList.length + 1 < 10 ^ Number.maxDigits) :
    (dump? text).isSome = true := by
  unfold dump?
  rw [if_pos, Option.isSome_some]
  rw [List.all_eq_true]
  intro e he
  cases e with
  | token t => rfl
  | mark line =>
    have hbounds := mark_of_mem_eventsFrom he
    exact decide_eq_true (Wire.length_mark_le (by omega) (by omega))

/-! ## Written events as an input -/

theorem Input.readAll_wire {i : Input} {origin : Option File} {s : Wire.LineStream}
    {es : List Event} (h : Reads s es) (hfeed : i.feed = .wire origin s) (hopen : i.isOpen = true) :
    i.readAll = (es, none) := by
  induction h generalizing i with
  | @done s s' hs =>
    have hread : i.read = (.ok none, { i with feed := .wire origin s' }) := by
      simp [read, hfeed, hopen, hs]
    exact readAll_of_end hread
  | @more s s' e es hs _ ih =>
    have hread : i.read = (.ok (some e), { i with feed := .wire origin s' }) := by
      simp [read, hfeed, hopen, hs]
    have hall : ({ i with feed := .wire origin s' } : Input).readAll = (es, none) := ih rfl hopen
    rw [readAll_of_event hread, hall]

theorem Input.supply_wire (name : String) {s : Wire.LineStream} {es : List Event} (h : Reads s es) :
    (Input.ofFeed name (.wire none s)).supply = .ok es := by
  have hopen : Stream.ensureOpen (Input.ofFeed name (.wire none s)) =
      .ok { Input.ofFeed name (.wire none s) with isOpen := true } := rfl
  unfold supply
  rw [hopen]
  dsimp only
  rw [readAll_wire h rfl rfl]

theorem Input.nameFrom_of_ne {name : String} (h : name ≠ "") (fallback : String) :
    nameFrom (some name) none fallback = name := by
  simp [nameFrom, h]

/-- A machine runs alike on a text and on the written events of the text: for any number of steps
it has come to the same end, or to none. -/
theorem wire_parsed_as_text {V : Type} (m : Machine V) {text name w : String} (hname : name ≠ "")
    (hw : dump? text = some w) :
    ∃ i j, Input.text (some name) none (some text) = .ok i ∧
      Input.wire (some name) none (some w) = .ok j ∧
      ∀ fuel, (m.parse fuel (m.start (.ofInputs [i]))).map Machine.observed =
        (m.parse fuel (m.start (.ofInputs [j]))).map Machine.observed := by
  refine ⟨_, _, rfl, rfl, ?_⟩
  intro fuel
  have htext := Input.supply_text name text .start (.ofText "")
  have hwire := Input.supply_wire name (reads_dump hw)
  have hagree := Stream.Agree.of_supply htext hwire rfl rfl
  dsimp only [Option.map_none]
  rw [Input.nameFrom_of_ne hname, Input.nameFrom_of_ne hname]
  exact Machine.parse_agree ⟨_, hagree, rfl⟩ fuel

/-- A string that is not closed, and a second line. -/
def unclosedText : String := "x 'it\\\n 1"

def unclosedDump : String := "1\nident:'x'\ninvalid:''\\''it\\'\nnl:'\n'\n2\ninteger:'1'\n"

theorem dump?_unclosedText : dump? unclosedText = some unclosedDump := by
  decide +kernel

theorem wire_parsed_as_text_unclosed :
    ∃ i j, Input.text (some "input") none (some unclosedText) = .ok i ∧
      Input.wire (some "input") none (some unclosedDump) = .ok j ∧
      ∀ fuel, ((Nesting.machine true).parse fuel
          ((Nesting.machine true).start (.ofInputs [i]))).map Machine.observed =
        ((Nesting.machine true).parse fuel
          ((Nesting.machine true).start (.ofInputs [j]))).map Machine.observed :=
  wire_parsed_as_text (Nesting.machine true) (by decide) dump?_unclosedText

end ShiftReduce
