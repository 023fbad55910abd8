import ShiftReduce.Proofs.LogicalLines
import ShiftReduce.Proofs.TextCommand
import ShiftReduce.Proofs.WireParsing

/-! # A dump is a normal form

The events that are read from a stream, whatever its lines look like, are written with one spelling
for each of them. That dump is read as the same events, and dumped as itself.
-/

namespace ShiftReduce

namespace Wire

/-! ## Events that were read -/

variable {s s' : LineStream} {es : List Event}

theorem writable_of_read {e : Event} (h : s.read = (.ok (some e), s')) : Writable e := by
  have hline : ∃ body, decodeLine body = .ok (some e) := by
    unfold LineStream.read at h
    split at h
    · split at h <;> cases h
    · next raw lines _ =>
      split at h
      · next body rest _ => exact ⟨body, congrArg Prod.fst h⟩
      · next body rest _ =>
        split at h
        · exact ⟨body, congrArg Prod.fst h⟩
        · cases h
  obtain ⟨body, hbody⟩ := hline
  rcases decodeLine_cases body with hover | ⟨e', he', hread⟩
  · rw [decodeLine_overlong hover] at hbody
    cases hbody
  · rw [hbody, Except.ok.injEq, Option.some.injEq] at hread
    exact hread ▸ he'.writable

theorem Reads.writable (h : Reads s es) : ∀ e ∈ es, Writable e := by
  induction h with
  | done => simp
  | more hread _ ih => exact List.forall_mem_cons.mpr ⟨writable_of_read hread, ih⟩

theorem Reads.unique {es' : List Event} (h : Reads s es) (h' : Reads s es') : es = es' := by
  induction h generalizing es' with
  | done hread =>
    cases h' with
    | done => rfl
    | more hread' => cases hread.symm.trans hread'
  | more hread _ ih =>
    cases h' with
    | done hread' => cases hread.symm.trans hread'
    | more hread' hs' =>
      cases hread.symm.trans hread'
      rw [ih hs']

/-! ## Dumps -/

/-- Events as a text, each on lines of its own. -/
def dumped (es : List Event) : String :=
  String.ofList (es.flatMap fun e => encodeChars e ++ ['\n'])

/-- A stream can be read to its end, and the text is the dump of its events. -/
def Dumps (s : LineStream) (d : String) : Prop := ∃ es, Reads s es ∧ d = dumped es

/-- The two ways to read a text: in memory, and from a file. -/
def streams (text : String) : List LineStream := [.ofText text, .ofBytes text.toUTF8.data.toList]

theorem reads_dumped (h : ∀ e ∈ es, Writable e) : ∀ s ∈ streams (dumped es), Reads s es := by
  intro s hs
  rw [streams, List.mem_pair] at hs
  rcases hs with rfl | rfl
  · rw [LineStream.ofText, dumped, String.toList_ofList]
    exact splits_feedLines.reads (written_lines false h)
  · rw [ofBytes_toUTF8, dumped, String.toList_ofList]
    exact splits_anyLines.reads (written_lines true h)

theorem dumps_iff (h : Reads s es) {d : String} : Dumps s d ↔ d = dumped es := by
  constructor
  · rintro ⟨es', hes', rfl⟩
    rw [h.unique hes']
  · rintro rfl
    exact ⟨es, h, rfl⟩

end Wire

namespace Command

/-! ## The command that dumps a stream -/

variable {disk : Disk} {file : String}

def dumpArguments (file : String) : List String := ["-T", "--wire", file]

theorem ofArguments_dump (hfile : file.toList.head? ≠ some '-') :
    Options.ofArguments (dumpArguments file) =
      .ok { file := some file, wire := true, dumpTokens := true } := by
  have hne : file ≠ "-" := by
    rintro rfl
    exact hfile rfl
  unfold Options.ofArguments dumpArguments
  rw [classifyAll_cons (a := .option .dumpTokens ['-', 'T'] none) _ (by decide) rfl,
    classifyAll_cons (a := .option .wire "--wire".toList none) _ (by decide) rfl,
    classifyAll_word hfile]
  dsimp only [classifyAll, Except.map]
  have hread : readArguments {} [("-T", .option .dumpTokens ['-', 'T'] none),
      ("--wire", .option .wire "--wire".toList none), (file, .word file)] =
      .ok { options := { file := some file, wire := true, dumpTokens := true }, named := true } :=
    rfl
  rw [hread]
  simp [checked, hne]

theorem run_printed (es : List Event) (t : Transcript) :
    (forIn es PUnit.unit fun e _ => do
      print (Wire.encode e)
      pure (.yield PUnit.unit) : Task PUnit).run.run t =
      (.ok PUnit.unit, { t with out := t.out ++ Wire.dumped es }) := by
  induction es generalizing t with
  | nil =>
    have hout : t.out ++ Wire.dumped [] = t.out := String.append_empty
    rw [List.forIn_nil, hout]
    rfl
  | cons e es ih =>
    have hout :
        t.out ++ Wire.encode e ++ "\n" ++ Wire.dumped es = t.out ++ Wire.dumped (e :: es) := by
      apply String.toList_inj.mp
      simp [Wire.dumped, Wire.encode]
    rw [List.forIn_cons, bind_assoc, run_bind, ← hout]
    exact ih _

theorem exists_opened {bytes : List UInt8} (hread : disk.read file = .ok bytes)
    (hnul : hasNul file = false) {es : List Event} (h : Wire.Reads (.ofBytes bytes) es) :
    ∃ i, (Input.ofFile (disk.file file) true).opened = .ok i ∧ i.readAll = (es, none) := by
  have hlines : Input.fileLines (disk.file file) = .ok (.ofBytes bytes) := by
    simp [Input.fileLines, Disk.file, hnul, hread]
  refine ⟨{ Input.ofFeed (Input.nameFrom none (some file) "<stream>")
    (.wire (some (disk.file file)) (.ofBytes bytes)) with isOpen := true }, ?_,
    Input.readAll_wire h rfl rfl⟩
  unfold Input.opened Input.ofFile
  simp only [if_true, Input.ofFeed, Input.openFeed, hlines]
  rfl

theorem run_dump {bytes : List UInt8} (hread : disk.read file = .ok bytes)
    (hnul : hasNul file = false) (hdash : file.toList.head? ≠ some '-') {es : List Event}
    (h : Wire.Reads (.ofBytes bytes) es) (fuel : Nat) :
    run fuel disk (dumpArguments file) = (.exit 0, { out := Wire.dumped es }) := by
  obtain ⟨i, hopened, hall⟩ := exists_opened hread hnul h
  have hprinted := run_printed es {}
  rw [show ({} : Transcript).out ++ Wire.dumped es = Wire.dumped es from String.empty_append]
    at hprinted
  have hcommand : (command fuel disk
      { file := some file, wire := true, dumpTokens := true }).run.run {} =
      (.ok 0, { out := Wire.dumped es }) := by
    simp only [command, dumpTokens, Option.getD_some, hopened, orFail, pure_bind, hall]
    rw [if_neg (by decide), if_pos trivial, run_bind, hprinted]
    rfl
  rw [run, ofArguments_dump hdash]
  simp only [hcommand]

end Command

namespace Wire

/-- The dump of a stream is read, in memory and from a file, as the events of the stream, and it is
its own dump. It is what the command prints for the file that the stream comes from. -/
theorem dump_is_normal_form {s : LineStream} {d : String} (h : Dumps s d) :
    (∀ r ∈ streams d, (∀ es, Reads r es ↔ Reads s es) ∧ ∀ d', Dumps r d' ↔ d' = d) ∧
      ∀ (disk : Disk) (file : String), (disk.read file).map LineStream.ofBytes = .ok s →
        hasNul file = false → file.toList.head? ≠ some '-' →
        ∀ fuel, Command.run fuel disk (Command.dumpArguments file) = (.exit 0, { out := d }) := by
  obtain ⟨es, hes, rfl⟩ := h
  constructor
  · intro r hr
    have hdump := reads_dumped hes.writable r hr
    refine ⟨fun es' => ⟨fun hes' => ?_, fun hes' => ?_⟩, fun d' => dumps_iff hdump⟩
    · rwa [hes'.unique hdump]
    · rwa [hes'.unique hes]
  · intro disk file hread hnul hdash fuel
    cases hbytes : disk.read file with
    | error f =>
      rw [hbytes] at hread
      cases hread
    | ok bytes =>
      rw [hbytes] at hread
      obtain rfl := Except.ok.inj hread
      exact Command.run_dump hbytes hnul hdash hes fuel

/-- A number with zeros in front of it, blank lines, a value in two pieces, and a quote that is
never closed. -/
def roughText : String := "007\r\n\n\t\nident:'a'\"b\" \n x'\r"

def roughDump : String := "7\nident:'ab'\ninvalid:' x'\\''\r'\n"

def roughFolder : Folder := ⟨[("in", .file roughText.toUTF8.data.toList)]⟩

theorem dumps_roughText : Dumps (.ofBytes roughText.toUTF8.data.toList) roughDump := by
  let rest (text : String) : LineStream := ⟨anyLines text.toList, .clean⟩
  have hmark : (rest roughText).read =
      (.ok (some (.mark 7)), rest "\n\t\nident:'a'\"b\" \n x'\r") := by decide +kernel
  have htoken : (rest "\n\t\nident:'a'\"b\" \n x'\r").read =
      (.ok (some (.token ⟨"ident", "ab"⟩)), rest " x'\r") := by decide +kernel
  have hinvalid : (rest " x'\r").read =
      (.ok (some (.token ⟨"invalid", " x'\r"⟩)), rest "") := by decide +kernel
  have hdone : (rest "").read = (.ok none, rest "") := by decide +kernel
  rw [ofBytes_toUTF8]
  exact ⟨_, .more hmark (.more htoken (.more hinvalid (.done hdone))), by decide +kernel⟩

theorem dump_is_normal_form_rough :
    Dumps (.ofBytes roughText.toUTF8.data.toList) roughDump ∧
      (∀ r ∈ streams roughDump, ∀ d', Dumps r d' ↔ d' = roughDump) ∧
      Command.run 0 roughFolder.disk ["-T", "--wire", "in"] = (.exit 0, { out := roughDump }) := by
  obtain ⟨hstreams, hcommand⟩ := dump_is_normal_form dumps_roughText
  refine ⟨dumps_roughText, fun r hr => (hstreams r hr).2, ?_⟩
  exact hcommand roughFolder.disk "in" rfl (by decide) (by decide) 0

end Wire

end ShiftReduce
