import ShiftReduce.Proofs.Delivery
import ShiftReduce.Proofs.MaximalMunch

/-! # The events of a text

An input that scans a text gives its events one by one, each only when it is asked for. Taken
together they are the events of the whole text.
-/

namespace ShiftReduce

variable {cs rest : List Char} {marked line : Int} {t : Token}

theorem eventsFrom_end (h : scanToken cs = none) :
    eventsFrom marked line cs = markFor marked line := by
  rw [eventsFrom]
  split <;> simp_all

theorem eventsFrom_token (h : scanToken cs = some (t, rest)) :
    eventsFrom marked line cs =
      markFor marked line ++ .token t :: eventsFrom line (t.lineAfter line) rest := by
  rw [eventsFrom]
  split <;> simp_all

/-! ## One event at a time -/

/-- The events that a walk over a cursor still has. -/
def Walk.remaining (w : Walk) (c : Cursor) : List Event :=
  if w.ended then []
  else (w.owed.map Event.token).toList ++ eventsFrom w.marked c.line c.rest

theorem Walk.pull_eq (w : Walk) (c : Cursor) (hc : c.held = none) :
    ∃ v d, w.pull c = ((w.remaining c).head?, v, d) ∧ d.held = none ∧
      v.remaining d = (w.remaining c).tail := by
  obtain ⟨marked, owed, ended⟩ := w
  obtain ⟨cs, line, held⟩ := c
  obtain rfl : held = none := hc
  unfold pull remaining
  cases ended with
  | true => exact ⟨_, _, rfl, rfl, rfl⟩
  | false =>
    cases owed with
    | some t => exact ⟨_, _, rfl, rfl, rfl⟩
    | none =>
      cases hscan : scanToken cs with
      | none =>
        have htake : (⟨cs, line, none⟩ : Cursor).take = (none, ⟨[], line, none⟩) := by
          simp [Cursor.take, Cursor.scan, hscan]
        by_cases hmarked : line = marked
        · subst hmarked
          simp [htake, eventsFrom_end hscan, markFor]
        · simp [htake, eventsFrom_end hscan, markFor, hmarked]
      | some found =>
        obtain ⟨t, rest⟩ := found
        have htake : (⟨cs, line, none⟩ : Cursor).take =
            (some (t, line), ⟨rest, t.lineAfter line, none⟩) := by
          simp [Cursor.take, Cursor.scan, hscan]
        by_cases hmarked : line = marked
        · subst hmarked
          simp [htake, eventsFrom_token hscan, markFor]
        · simp [htake, eventsFrom_token hscan, markFor, hmarked]

theorem Input.readAll_text {i : Input} {origin : TextOrigin} {w : Walk} {c : Cursor}
    (hfeed : i.feed = .text origin w c) (hopen : i.isOpen = true) (hc : c.held = none) :
    i.readAll = (w.remaining c, none) := by
  generalize hes : w.remaining c = es
  induction es generalizing i w c with
  | nil =>
    obtain ⟨v, d, hpull, -, -⟩ := w.pull_eq c hc
    have hread : i.read = (.ok none, { i with feed := .text origin v d }) := by
      simp [read, hfeed, hopen, hpull, hes]
    exact readAll_of_end hread
  | cons e es ih =>
    obtain ⟨v, d, hpull, hd, hrest⟩ := w.pull_eq c hc
    have hread : i.read = (.ok (some e), { i with feed := .text origin v d }) := by
      simp [read, hfeed, hopen, hpull, hes]
    have hall : ({ i with feed := .text origin v d } : Input).readAll = (es, none) :=
      ih rfl hopen hd (by rw [hrest, hes]; rfl)
    rw [readAll_of_event hread, hall]

theorem Input.supply_text (name text : String) (w : Walk) (c : Cursor) :
    (Input.ofFeed name (.text (.memory text) w c)).supply = .ok (events text) := by
  have hopen : Stream.ensureOpen (Input.ofFeed name (.text (.memory text) w c)) =
      .ok { Input.ofFeed name (.text (.memory text) .start (.ofText text)) with
        isOpen := true } := rfl
  unfold supply
  rw [hopen]
  dsimp only
  rw [readAll_text rfl rfl rfl]
  rfl

/-! ## What the events hold -/

theorem scanToken_kind (h : scanToken cs = some (t, rest)) :
    t.kind ∈ terminals ∧ t.kind ≠ "eof" := by
  fun_induction scanToken cs with
  | case1 => cases h
  | case2 c cs u hu =>
    cases h
    exact (munched_first c cs).token_kind hu
  | case3 c cs _ ih => exact ih h

theorem token_of_mem_eventsFrom (h : .token t ∈ eventsFrom marked line cs) :
    t.kind ∈ terminals ∧ t.kind ≠ "eof" := by
  have hmark : ∀ {marked line : Int}, Event.token t ∉ markFor marked line := by
    intro marked line
    unfold markFor
    split <;> simp
  fun_induction eventsFrom marked line cs with
  | case1 => exact absurd h hmark
  | case2 marked line cs u rest hscan ih =>
    rcases List.mem_append.mp h with h | h
    · exact absurd h hmark
    rcases List.mem_cons.mp h with hu | h
    · cases hu
      exact scanToken_kind hscan
    · exact ih h

theorem mark_of_mem_eventsFrom {l : Int} (h : .mark l ∈ eventsFrom marked line cs) :
    line ≤ l ∧ l ≤ line + cs.length := by
  have hmark : ∀ {marked line : Int}, Event.mark l ∈ markFor marked line → l = line := by
    intro marked line
    unfold markFor
    split <;> simp
  fun_induction eventsFrom marked line cs with
  | case1 =>
    have := hmark h
    omega
  | case2 marked line cs u rest hscan ih =>
    rcases List.mem_append.mp h with h | h
    · have := hmark h
      omega
    rcases List.mem_cons.mp h with hu | h
    · cases hu
    · have hlt := scanToken_lt hscan
      have hbounds := ih h
      unfold Token.lineAfter at hbounds
      split at hbounds <;> omega

end ShiftReduce
