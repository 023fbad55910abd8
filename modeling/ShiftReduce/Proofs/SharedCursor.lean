import ShiftReduce.Proofs.MaximalMunch

/-! # Looking ahead leaves no trace

One cursor may be read token by token, looked at, set to another text, and shared by any number of
walks over its events, all in any order. A look moves the cursor on and holds a token back, but
nothing that is read later tells whether there was one.
-/

namespace ShiftReduce

/-! ## A cursor that was looked at -/

namespace Cursor

variable {c d : Cursor}

theorem next_fst (h : d.held = none) : d.next.1 = (tokenize (String.ofList d.rest)).head? := by
  unfold tokenize
  rw [String.toList_ofList, tokens_of_scanToken]
  cases hscan : scanToken d.rest with
  | none => simp [next, take, scan, h, hscan]
  | some found => simp [next, take, scan, h, hscan]

theorem peek_fst (c : Cursor) : c.peek.1 = c.next.1 := by
  unfold peek next take
  cases c.held <;> rfl

theorem take_held (h : d.held = none) : d.take.2.held = none := by
  unfold take scan
  rw [h]
  dsimp only
  split <;> rfl

/-- `c` was looked at, or was not, where `d` was not. -/
structure Ahead (c d : Cursor) : Prop where
  free : d.held = none
  looked : c = d ∨ c = d.peek.2

theorem Ahead.peek (h : Ahead c d) : Ahead c.peek.2 d := by
  obtain ⟨hfree, rfl | rfl⟩ := h
  · exact ⟨hfree, .inr rfl⟩
  refine ⟨hfree, .inr ?_⟩
  obtain ⟨cs, line, _⟩ := d
  cases hfree
  cases hscan : scanToken cs with
  | some found => simp [Cursor.peek, scan, hscan]
  | none =>
    -- At the end there is nothing to hold, and the second look scans again.
    simp [Cursor.peek, scan, hscan, scanToken]

theorem Ahead.take (h : Ahead c d) : c.take = d.take := by
  obtain ⟨hfree, rfl | rfl⟩ := h
  · rfl
  obtain ⟨cs, line, _⟩ := d
  cases hfree
  cases hscan : scanToken cs with
  | some found => simp [Cursor.peek, Cursor.take, scan, hscan]
  | none => simp [Cursor.peek, Cursor.take, scan, hscan, scanToken]

theorem Ahead.next (h : Ahead c d) : c.next = d.next := by
  unfold Cursor.next
  rw [h.take]

theorem Ahead.refl (h : d.held = none) : Ahead d d := ⟨h, .inl rfl⟩

theorem Ahead.after_take (h : Ahead c d) : Ahead c.take.2 d.take.2 := by
  rw [h.take]
  exact .refl (take_held h.free)

end Cursor

theorem Walk.pull_ahead (w : Walk) {c d : Cursor} (h : c.Ahead d) :
    (w.pull c).1 = (w.pull d).1 ∧ (w.pull c).2.1 = (w.pull d).2.1 ∧
      (w.pull c).2.2.Ahead (w.pull d).2.2 := by
  have htake := h.after_take
  unfold Walk.pull
  rw [h.take] at htake ⊢
  split
  · exact ⟨rfl, rfl, h⟩
  split
  · exact ⟨rfl, rfl, h⟩
  generalize d.take = taken at htake
  obtain ⟨_ | ⟨t, line⟩, e⟩ := taken
  · dsimp only at htake ⊢
    split <;> exact ⟨rfl, rfl, htake⟩
  · dsimp only at htake ⊢
    split <;> exact ⟨rfl, rfl, htake⟩

/-! ## Sessions -/

/-- A cursor and the walks over it, in the order they were made. -/
structure Session where
  cursor : Cursor
  walks : List Walk

namespace Session

inductive Operation where
  | next
  | peek
  | reset (text : String) (line : Int)
  | walk
  | pull (index : Nat)
deriving DecidableEq

inductive Answer where
  | token (t : Option Token)
  | event (e : Option Event)
  | nothing
deriving DecidableEq

def start (text : String) (line : Int) : Session := ⟨.ofText text line, []⟩

def perform (s : Session) : Operation → Answer × Session
  | .next => (.token s.cursor.next.1, { s with cursor := s.cursor.next.2 })
  | .peek => (.token s.cursor.peek.1, { s with cursor := s.cursor.peek.2 })
  | .reset text line => (.nothing, { s with cursor := .ofText text line })
  | .walk => (.nothing, { s with walks := s.walks ++ [.start] })
  | .pull i =>
    match s.walks[i]? with
    -- No such walk was made.
    | none => (.nothing, s)
    | some w =>
      let (e, w, c) := w.pull s.cursor
      (.event e, ⟨c, s.walks.set i w⟩)

/-- Each operation with its answer. -/
def transcript (s : Session) : List Operation → List (Operation × Answer)
  | [] => []
  | o :: ops => (o, (s.perform o).1) :: transcript (s.perform o).2 ops

def after (s : Session) (ops : List Operation) : Session :=
  ops.foldl (fun s o => (s.perform o).2) s

def unlooked (ops : List Operation) : List Operation := ops.filter (· ≠ .peek)

/-- `s` was looked at where `q` was not. -/
structure Ahead (s q : Session) : Prop where
  cursor : s.cursor.Ahead q.cursor
  walks : s.walks = q.walks

variable {s q : Session}

theorem Ahead.look (h : Ahead s q) : Ahead (s.perform .peek).2 q :=
  ⟨h.cursor.peek, h.walks⟩

theorem Ahead.step (h : Ahead s q) {o : Operation} (ho : o ≠ .peek) :
    (s.perform o).1 = (q.perform o).1 ∧ Ahead (s.perform o).2 (q.perform o).2 := by
  obtain ⟨hcursor, hwalks⟩ := h
  cases o with
  | peek => exact absurd rfl ho
  | next =>
    have hnext : s.cursor.next = q.cursor.next := hcursor.next
    refine ⟨?_, ⟨?_, hwalks⟩⟩
    · simp only [perform, hnext]
    · exact hcursor.after_take
  | reset text line => exact ⟨rfl, ⟨.refl rfl, hwalks⟩⟩
  | walk => exact ⟨rfl, ⟨hcursor, by simp [perform, hwalks]⟩⟩
  | pull i =>
    simp only [perform, hwalks]
    cases q.walks[i]? with
    | none => exact ⟨rfl, hcursor, hwalks⟩
    | some w =>
      obtain ⟨hevent, hwalk, hrest⟩ := w.pull_ahead hcursor
      exact ⟨congrArg Answer.event hevent, hrest, congrArg (q.walks.set i) hwalk⟩

theorem Ahead.run (h : Ahead s q) (ops : List Operation) :
    (s.transcript ops).filter (·.1 ≠ .peek) = q.transcript (unlooked ops) ∧
      Ahead (s.after ops) (q.after (unlooked ops)) := by
  -- A look is a step of `s` alone, every other operation is one of both.
  induction ops generalizing s q with
  | nil => exact ⟨rfl, h⟩
  | cons o ops ih =>
    by_cases ho : o = .peek
    · subst ho
      have hops : unlooked (.peek :: ops) = unlooked ops := by simp [unlooked]
      have hlook : (s.transcript (.peek :: ops)).filter (·.1 ≠ .peek) =
          ((s.perform .peek).2.transcript ops).filter (·.1 ≠ .peek) := by
        simp [transcript]
      rw [hops, hlook]
      exact ih h.look
    · obtain ⟨hanswer, hstep⟩ := h.step ho
      obtain ⟨htranscript, hafter⟩ := ih hstep
      have hops : unlooked (o :: ops) = o :: unlooked ops := by simp [unlooked, ho]
      rw [hops]
      refine ⟨?_, hafter⟩
      simp [transcript, ho, hanswer, ← htranscript]

theorem Ahead.looks (h : Ahead s q) (n : Nat) :
    (s.transcript (List.replicate n .peek ++ [.next])).map Prod.snd =
      List.replicate (n + 1) (.token q.cursor.next.1) := by
  induction n generalizing s with
  | zero => simp [transcript, perform, h.cursor.next]
  | succ n ih =>
    have hlook : s.cursor.peek.1 = q.cursor.next.1 := by
      rw [Cursor.peek_fst, h.cursor.next]
    rw [List.replicate_succ (n := n + 1), ← ih h.look]
    simp [List.replicate_succ, transcript, perform, hlook]

/-- Without its looks a session gives the same answers. Looks in front of a token show that token,
which is the first of those left in the text, so they show nothing just if there is none. -/
theorem looks_leave_no_trace (text : String) (line : Int) (ops : List Operation) :
    let s := start text line
    (s.transcript ops).filter (·.1 ≠ .peek) = s.transcript (unlooked ops) ∧
      ∀ n, ((s.after ops).transcript (List.replicate n .peek ++ [.next])).map Prod.snd =
        List.replicate (n + 1)
          (.token (tokenize (String.ofList (s.after (unlooked ops)).cursor.rest)).head?) := by
  intro s
  have hstart : Ahead s s := ⟨.refl rfl, rfl⟩
  obtain ⟨htranscript, hafter⟩ := hstart.run ops
  refine ⟨htranscript, fun n => ?_⟩
  rw [hafter.looks, Cursor.next_fst hafter.cursor.free]

end Session

end ShiftReduce
