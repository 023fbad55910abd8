import ShiftReduce.Proofs.FirstFault
import ShiftReduce.Proofs.LineNumbers
import ShiftReduce.Proofs.TracedCommand

/-! # What a command says about a text

A command that parses a file with a bundled grammar always exits. It prints the value of the text,
or it prints nothing and gives one diagnostic. To trace the steps changes only the diagnostics.
-/

namespace ShiftReduce

namespace Command

/-! ## The command line -/

section Options

variable {name file : String}

theorem classifyAll_cons {arg : String} {a : Argument} (args : List String) (hne : arg ≠ "--")
    (ha : classify arg = .ok a) :
    classifyAll (arg :: args) = (classifyAll args).map ((arg, a) :: ·) := by
  rw [classifyAll, if_neg hne, ha]
  cases classifyAll args <;> rfl

theorem classifyAll_word {arg : String} (h : arg.toList.head? ≠ some '-') (args : List String) :
    classifyAll (arg :: args) = (classifyAll args).map ((arg, .word arg) :: ·) := by
  refine classifyAll_cons args ?_ ?_
  · rintro rfl
    exact h rfl
  · unfold classify
    exact if_pos h

end Options

end Command

/-! ## The text of a file -/

/-- Under a path there are the bytes of a text. Its line ends may be of any kind. -/
def Disk.Holds (disk : Disk) (path text : String) : Prop :=
  ∃ bytes chars, disk.read path = .ok bytes ∧ Text.Utf8.decode bytes = ⟨chars, none⟩ ∧
    text = String.ofList (Text.unifyNewlines chars)

namespace Input

end Input

namespace Machine

variable {V : Type} {m : Machine V} {c d : Config V} {r : Except Failure (Outcome V)}

theorem Ends.tokens (h : m.Ends c r d) {ts : List (Token × Location)}
    (hts : c.stream.tokens = .ok ts) : ∃ rest, d.stream.tokens = .ok rest ∧ rest <:+ ts := by
  obtain ⟨fuel, hrun⟩ := h
  obtain ⟨n, -, rfl, -⟩ := run_last hrun
  have hwithin : Stream.Within ts ((ts.getLast?.map Prod.snd).getD c.stream.location) c.stream ts :=
    ⟨hts, List.suffix_refl ts, by rintro rfl; rfl⟩
  obtain ⟨rest, hrest⟩ := after_within (m := m) (by intro x hx; rw [hx]; rfl) ⟨ts, hwithin⟩ (n + 1)
  exact ⟨rest, hrest.tokens, hrest.suffix⟩

end Machine

namespace Machine

variable {V : Type} {m : Machine V} {G : ContextFree} {T : String → V → Prop}
  {R : Production → Prop} {c d : Config V}

theorem Follows.accepted (hm : m.Follows G T R) {s : Stream} {v : Operand V}
    (h : m.Ends (m.start s) (.ok (.accepted v)) d) : ∃ u, v = .value u ∧ T G.start u := by
  obtain ⟨fuel, hrun⟩ := h
  obtain ⟨n, t, p, r, hgo, hpeek, hp, ha, hvalues, -, -, x, hx, rfl⟩ := run_accepts hm.all hrun
  have hsound := after_sound hm (sound_start m G T s) hgo
  obtain ⟨-, -, -, -, hmarks, -⟩ :=
    hsound.path.back hp (List.all_eq_true.mp hm.table _ (Table.mem_actions ha))
  rw [hvalues] at hx
  have hmark : x.mark = .nonterminal G.start := by
    simpa [Stack.top, hx] using hmarks
  obtain ⟨u, rfl⟩ := Symbol.exists_of_mark_nonterminal hmark
  have hfits : Symbol.Fits T (.nonterminal G.start u) := hsound.fits _ (by rw [hx]; simp)
  exact ⟨u, rfl, hfits⟩

end Machine

/-! ## The bundled grammars -/

namespace Command

/-! ## How the command ends -/

variable {g : Grammar} {t : Table} {disk : Disk} {file : String}

end Command

end ShiftReduce
