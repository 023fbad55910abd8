import ShiftReduce.Command.Run

/-! # What a stream delivers

A stream stands for a list of tokens with their places: those put back, then those of each input in
turn, each input ended by one end token. Taking a token gives the head of this list and leaves its
tail, and looking at one leaves the list as it is.
-/

namespace ShiftReduce

/-! ## One input -/

namespace Input

theorem read_keeps (i : Input) :
    i.read.2.name = i.name ∧ i.read.2.line = i.line ∧ i.read.2.isOpen = i.isOpen := by
  unfold read
  split
  · split <;> simp
  · split
    · dsimp only
      split <;> simp
    · simp
  · simp
  · simp

theorem opened_keeps {i j : Input} (h : i.opened = .ok j) :
    j.name = i.name ∧ j.line = i.line ∧ j.isOpen = true := by
  unfold opened at h
  cases hf : openFeed i.isOpen i.feed with
  | error f => simp [hf, Except.map] at h
  | ok feed =>
    simp only [hf, Except.map, Except.ok.injEq] at h
    simp [← h]

theorem ensureOpen_keeps {i j : Input} (h : Stream.ensureOpen i = .ok j) :
    j.name = i.name ∧ j.line = i.line ∧ j.isOpen = true := by
  unfold Stream.ensureOpen at h
  split at h
  · next ho =>
    obtain rfl := Except.ok.inj h
    exact ⟨rfl, rfl, ho⟩
  · exact opened_keeps h

theorem ensureOpen_of_open {i : Input} (h : i.isOpen = true) : Stream.ensureOpen i = .ok i := by
  simp [Stream.ensureOpen, h]

/-- All events that an input still has, opened if it is not, or the failure that it meets. -/
def supply (i : Input) : Except Failure (List Event) :=
  match Stream.ensureOpen i with
  | .error f => .error f
  | .ok j =>
    match j.readAll with
    | (es, none) => .ok es
    | (_, some f) => .error f

theorem supply_eq_ok {i : Input} {es : List Event} (h : i.supply = .ok es) :
    ∃ j, Stream.ensureOpen i = .ok j ∧ j.readAll = (es, none) := by
  unfold supply at h
  split at h
  · simp at h
  · next j hj =>
    refine ⟨j, hj, ?_⟩
    split at h
    · next es' hr =>
      obtain rfl := Except.ok.inj h
      exact hr
    · simp at h

theorem supply_of_open {i : Input} {es : List Event} (ho : i.isOpen = true)
    (h : i.readAll = (es, none)) : i.supply = .ok es := by
  simp [supply, ensureOpen_of_open ho, h]

theorem readAll_nil {i : Input} (h : i.readAll = ([], none)) : ∃ j, i.read = (.ok none, j) := by
  unfold readAll at h
  split at h
  · simp at h
  · next j hr => exact ⟨j, hr⟩
  · simp at h

theorem readAll_cons {i : Input} {e : Event} {es : List Event} (h : i.readAll = (e :: es, none)) :
    ∃ j, i.read = (.ok (some e), j) ∧ j.readAll = (es, none) := by
  unfold readAll at h
  split at h
  · simp at h
  · simp at h
  · next e' j hr =>
    simp only [Prod.mk.injEq, List.cons.injEq] at h
    obtain ⟨⟨rfl, rfl⟩, hf⟩ := h
    exact ⟨j, hr, by simp [Prod.ext_iff, hf]⟩

theorem readAll_of_end {i j : Input} (h : i.read = (.ok none, j)) : i.readAll = ([], none) := by
  rw [readAll]
  split <;> simp_all

theorem readAll_of_event {i j : Input} {e : Event} (h : i.read = (.ok (some e), j)) :
    i.readAll = (e :: j.readAll.1, j.readAll.2) := by
  rw [readAll]
  split <;> simp_all

/-! The line and the serial number are for the user of an input; what it reads does not depend on
them. -/

theorem read_label (i : Input) (l : Int) (k : Nat) :
    ({ i with line := l, serial := k } : Input).read =
      (i.read.1, { i.read.2 with line := l, serial := k }) := by
  obtain ⟨name, line, isOpen, serial, feed⟩ := i
  unfold read
  cases feed with
  | text origin walk cursor => cases isOpen <;> rfl
  | wire origin stream =>
    cases isOpen with
    | false => rfl
    | true =>
      dsimp only
      rcases stream.read with ⟨_ | _, t⟩ <;> rfl
  | tokens events rest => rfl
  | unreadable => rfl

theorem readAll_label (i : Input) (l : Int) (k : Nat) :
    ({ i with line := l, serial := k } : Input).readAll = i.readAll := by
  have hl := read_label i l k
  fun_induction readAll i with
  | case1 i f j h =>
    rw [h] at hl
    rw [readAll]
    split <;> simp_all
  | case2 i j h =>
    rw [h] at hl
    rw [readAll]
    split <;> simp_all
  | case3 i e j h r ih =>
    rw [h] at hl
    rw [readAll]
    split
    · simp_all
    · simp_all
    · next e' j' h' =>
      rw [h', Prod.mk.injEq, Except.ok.injEq, Option.some.injEq] at hl
      obtain ⟨rfl, rfl⟩ := hl
      rw [ih (read_label j l k)]

theorem ensureOpen_serial (i : Input) (k : Nat) :
    Stream.ensureOpen { i with serial := k } =
      (Stream.ensureOpen i).map fun j => { j with serial := k } := by
  unfold Stream.ensureOpen opened
  dsimp only
  split
  · rfl
  · cases openFeed i.isOpen i.feed <;> rfl

theorem supply_serial (i : Input) (k : Nat) :
    ({ i with serial := k } : Input).supply = i.supply := by
  unfold supply
  rw [ensureOpen_serial]
  cases Stream.ensureOpen i with
  | error f => rfl
  | ok j =>
    have hall : ({ j with serial := k } : Input).readAll = j.readAll := readAll_label j j.line k
    simp only [Except.map, hall]

theorem readToken_none {i j : Input} (h : i.read = (.ok none, j)) :
    i.readToken = (.ok none, j) := by
  rw [readToken]
  split <;> simp_all

theorem readToken_token {i j : Input} {t : Token} (h : i.read = (.ok (some (.token t)), j)) :
    i.readToken = (.ok (some t), j) := by
  rw [readToken]
  split <;> simp_all

theorem readToken_mark {i j : Input} {l : Int} (h : i.read = (.ok (some (.mark l)), j)) :
    i.readToken = { j with line := l }.readToken := by
  rw [readToken]
  split <;> simp_all

end Input

/-! ## Tokens with their places -/

/-- The tokens among some events, each at the line marked last, and the end token behind them. -/
def located (name : String) (line : Int) : List Event → List (Token × Location)
  | [] => [(.eof, ⟨name, line⟩)]
  | .mark l :: es => located name l es
  | .token t :: es => (t, ⟨name, line⟩) :: located name line es

theorem located_ne_nil (name : String) (line : Int) (es : List Event) :
    located name line es ≠ [] := by
  induction es generalizing line with
  | nil => simp [located]
  | cons e es ih =>
    cases e with
    | token t => simp [located]
    | mark l => exact ih l

theorem name_of_mem_located {name : String} {line : Int} {es : List Event} {x : Token × Location}
    (h : x ∈ located name line es) : x.2.name = name := by
  induction es generalizing line with
  | nil =>
    rw [located, List.mem_singleton] at h
    rw [h]
  | cons e es ih =>
    cases e with
    | mark l => exact ih h
    | token t =>
      rcases List.mem_cons.mp h with rfl | h
      · rfl
      · exact ih h

theorem Input.readToken_spec {i : Input} {es : List Event} (h : i.readAll = (es, none)) :
    (∃ k, i.readToken = (.ok none, k) ∧
      located i.name i.line es = [(.eof, ⟨k.name, k.line⟩)]) ∨
    (∃ t k rest, i.readToken = (.ok (some t), k) ∧ k.readAll = (rest, none) ∧
      k.isOpen = i.isOpen ∧
      located i.name i.line es = (t, ⟨k.name, k.line⟩) :: located k.name k.line rest) := by
  induction es generalizing i with
  | nil =>
    left
    obtain ⟨j, hr⟩ := readAll_nil h
    obtain ⟨hn, hl, -⟩ := read_keeps i
    simp only [hr] at hn hl
    exact ⟨j, readToken_none hr, by rw [hn, hl, located]⟩
  | cons e es ih =>
    obtain ⟨j, hr, hrest⟩ := readAll_cons h
    obtain ⟨hn, hl, ho⟩ := read_keeps i
    simp only [hr] at hn hl ho
    cases e with
    | token t =>
      right
      exact ⟨t, j, es, readToken_token hr, hrest, ho, by rw [hn, hl, located]⟩
    | mark l =>
      -- A mark only sets the line, so the token is read off what follows it.
      rw [readToken_mark hr, located, ← hn, ← ho]
      exact ih ((readAll_label j l j.serial).trans hrest)

/-! ## Streams -/

namespace Stream

def deliveries : List Input → Except Failure (List (Token × Location))
  | [] => .ok []
  | i :: rest =>
    match i.supply with
    | .error f => .error f
    | .ok es => (deliveries rest).map (located i.name i.line es ++ ·)

/-- The tokens still to come from a stream, each with its place, or the failure of an input. -/
def tokens (s : Stream) : Except Failure (List (Token × Location)) :=
  (deliveries s.pending).map (s.queue ++ ·)

theorem deliveries_cons {i : Input} {rest : List Input} {ts : List (Token × Location)}
    (h : deliveries (i :: rest) = .ok ts) :
    ∃ es us, i.supply = .ok es ∧ deliveries rest = .ok us ∧ ts = located i.name i.line es ++ us := by
  unfold deliveries at h
  split at h
  · simp at h
  · next es hs =>
    cases hd : deliveries rest with
    | error f => simp [hd, Except.map] at h
    | ok us =>
      simp only [hd, Except.map, Except.ok.injEq] at h
      exact ⟨es, us, hs, rfl, h.symm⟩

theorem deliveries_of_supply {i : Input} {rest : List Input} {es : List Event}
    {us : List (Token × Location)} (hs : i.supply = .ok es) (hr : deliveries rest = .ok us) :
    deliveries (i :: rest) = .ok (located i.name i.line es ++ us) := by
  simp [deliveries, hs, hr, Except.map]

theorem tokens_eq_ok {s : Stream} {ts : List (Token × Location)} (h : s.tokens = .ok ts) :
    ∃ us, deliveries s.pending = .ok us ∧ ts = s.queue ++ us := by
  unfold tokens at h
  cases hd : deliveries s.pending with
  | error f => simp [hd, Except.map] at h
  | ok us =>
    simp only [hd, Except.map, Except.ok.injEq] at h
    exact ⟨us, rfl, h.symm⟩

theorem next_of_cons {s : Stream} {x : Token × Location} {xs : List (Token × Location)}
    (h : s.tokens = .ok (x :: xs)) :
    ∃ r, s.next = (.ok (some x.1), r) ∧ r.tokens = .ok xs ∧ r.location = x.2 := by
  obtain ⟨us, hd, he⟩ := tokens_eq_ok h
  unfold next
  cases hq : s.queue with
  | cons y queue =>
    rw [hq, List.cons_append, List.cons.injEq] at he
    obtain ⟨rfl, rfl⟩ := he
    exact ⟨_, rfl, by simp [tokens, hd, Except.map], rfl⟩
  | nil =>
    rw [hq, List.nil_append] at he
    subst he
    cases hp : s.pending with
    | nil => simp [hp, deliveries] at hd
    | cons i rest =>
      rw [hp] at hd
      obtain ⟨es, vs, hs, hrest, he⟩ := deliveries_cons hd
      obtain ⟨j, hj, hall⟩ := Input.supply_eq_ok hs
      obtain ⟨hn, hl, ho⟩ := Input.ensureOpen_keeps hj
      rw [← hn, ← hl] at he
      rcases Input.readToken_spec hall with ⟨k, hk, hloc⟩ | ⟨t, k, more, hk, hmore, hko, hloc⟩
      · rw [hloc, List.cons_append, List.cons.injEq] at he
        obtain ⟨rfl, rfl⟩ := he
        simp only [hj, hk]
        exact ⟨_, rfl, by simp [tokens, hrest, Except.map], rfl⟩
      · rw [hloc, List.cons_append, List.cons.injEq] at he
        obtain ⟨rfl, rfl⟩ := he
        have hsk := Input.supply_of_open (hko.trans ho) hmore
        simp only [hj, hk]
        exact ⟨_, rfl, by simp [tokens, deliveries_of_supply hsk hrest, Except.map], rfl⟩

theorem next_of_nil {s : Stream} (h : s.tokens = .ok []) : s.next = (.ok none, s) := by
  obtain ⟨us, hd, he⟩ := tokens_eq_ok h
  obtain ⟨hq, rfl⟩ := List.append_eq_nil_iff.mp he.symm
  have hp : s.pending = [] := by
    cases hp : s.pending with
    | nil => rfl
    | cons i rest =>
      rw [hp] at hd
      obtain ⟨es, vs, -, -, he⟩ := deliveries_cons hd
      exact absurd (List.append_eq_nil_iff.mp he.symm).1 (located_ne_nil _ _ es)
  simp [next, hq, hp]

theorem peek_of_cons {s : Stream} {x : Token × Location} {xs : List (Token × Location)}
    (h : s.tokens = .ok (x :: xs)) :
    ∃ r, s.peek = (.ok (some x.1), r) ∧ r.tokens = .ok (x :: xs) ∧ r.location = x.2 ∧
      r.next.2.tokens = .ok xs := by
  obtain ⟨q, hn, hq, hl⟩ := next_of_cons h
  have hp : s.peek = (.ok (some x.1), q.pushBack x.1) := by simp [peek, hn]
  have hback : (q.pushBack x.1).next.2 = q := by simp [next, pushBack]
  obtain ⟨us, hd, he⟩ := tokens_eq_ok hq
  refine ⟨_, hp, ?_, hl, by rw [hback, hq]⟩
  simp [tokens, pushBack, hd, he, hl, Except.map]

theorem peek_of_nil {s : Stream} (h : s.tokens = .ok []) : s.peek = (.ok none, s) := by
  simp [peek, next_of_nil h]

theorem peek_tokens {s r : Stream} {look : Option Token} {ts : List (Token × Location)}
    (h : s.tokens = .ok ts) (hp : s.peek = (.ok look, r)) :
    look = ts.head?.map Prod.fst ∧ r.tokens = .ok ts ∧ r.next.2.tokens = .ok ts.tail := by
  cases ts with
  | nil =>
    rw [peek_of_nil h, Prod.mk.injEq, Except.ok.injEq] at hp
    obtain ⟨rfl, rfl⟩ := hp
    exact ⟨rfl, h, by rw [next_of_nil h]; exact h⟩
  | cons x xs =>
    obtain ⟨q, hq, htokens, -, hnext⟩ := peek_of_cons h
    rw [hq, Prod.mk.injEq, Except.ok.injEq] at hp
    obtain ⟨rfl, rfl⟩ := hp
    exact ⟨rfl, htokens, hnext⟩

/-! ## Lists of tokens -/

theorem readAll_list {i : Input} {all es : List Event} (h : i.feed = .tokens all es) :
    i.readAll = (es, none) := by
  induction es generalizing i with
  | nil =>
    have hr : i.read = (.ok none, { i with feed := .tokens all [] }) := by simp [Input.read, h]
    exact Input.readAll_of_end hr
  | cons e es ih =>
    have hr : i.read = (.ok (some e), { i with feed := .tokens all es }) := by simp [Input.read, h]
    rw [Input.readAll_of_event hr, ih rfl]

theorem supply_list (es : List Event) (name : String) (k : Nat) :
    ({ Input.tokens es name with serial := k } : Input).supply = .ok es := by
  have ho : Stream.ensureOpen { Input.tokens es name with serial := k } =
      .ok { Input.tokens es name with serial := k, isOpen := true } := rfl
  simp only [Input.supply, ho]
  rw [readAll_list rfl]

theorem tokens_list (ts : List Token) (name : String) :
    (ofInputs [Input.tokens (ts.map .token) name]).tokens =
      .ok (ts.map (·, ⟨name, 0⟩) ++ [(.eof, ⟨name, 0⟩)]) := by
  have hloc : located name 0 (ts.map .token) =
      ts.map (·, ⟨name, 0⟩) ++ [(.eof, ⟨name, 0⟩)] := by
    induction ts with
    | nil => rfl
    | cons t ts ih => simp [located, ih]
  have hd : deliveries [{ Input.tokens (ts.map .token) name with serial := 0 }] =
      .ok (located name 0 (ts.map .token) ++ []) :=
    deliveries_of_supply (supply_list (ts.map .token) name 0) rfl
  rw [List.append_nil] at hd
  calc (ofInputs [Input.tokens (ts.map .token) name]).tokens
      = (deliveries [{ Input.tokens (ts.map .token) name with serial := 0 }]).map ([] ++ ·) := rfl
    _ = .ok (located name 0 (ts.map .token)) := by rw [hd]; rfl
    _ = .ok (ts.map (·, ⟨name, 0⟩) ++ [(.eof, ⟨name, 0⟩)]) := by rw [hloc]

end Stream

end ShiftReduce
