import ShiftReduce.Proofs.Delivery

/-! # A stream refines a list of tokens

Whatever is done to a stream, in any order, it goes on to stand for one list of tokens with their
places, and every operation does to the stream what it does to that list.
-/

namespace ShiftReduce

def Event.token? : Event → Option Token
  | .token t => some t
  | .mark _ => none

@[simp]
theorem located_tokens (name : String) (line : Int) (es : List Event) :
    (located name line es).map Prod.fst = es.filterMap Event.token? ++ [Token.eof] := by
  induction es generalizing line with
  | nil => rfl
  | cons e es ih =>
    cases e with
    | token t =>
      rw [located, List.map_cons, ih]
      rfl
    | mark l => exact ih l

namespace Input

/-- No read of the input fails. -/
def Flows (i : Input) : Prop := ∃ es, i.supply = .ok es

def remaining (i : Input) : List Event :=
  match i.supply with
  | .ok es => es
  | .error _ => []

/-- The tokens still to come from an input, each with its place. -/
def delivery (i : Input) : List (Token × Location) := located i.name i.line i.remaining

theorem Flows.supply {i : Input} (h : i.Flows) : i.supply = .ok i.remaining := by
  obtain ⟨es, hs⟩ := h
  simp only [remaining, hs]

end Input

namespace Stream

/-! ## Operations -/

inductive Operation where
  | next
  | peek
  | pushBack (t : Token) (location : Option Location)
  | push (i : Input)
  | close

/-- What an operation answers, and the stream behind it. -/
def perform (s : Stream) : Operation → Except Failure (Option Token) × Stream
  | .next => s.next
  | .peek => s.peek
  | .pushBack t location => (.ok none, s.pushBack t location)
  | .push i => (.ok none, s.push i)
  | .close => (.ok none, s.close)

def performAll (s : Stream) (ops : List Operation) : Stream :=
  ops.foldl (fun s op => (s.perform op).2) s

/-- Every operation acts on a list of tokens. An input that is pushed comes behind the tokens that
were put back. -/
structure Refines (s : Stream) (ts : List (Token × Location)) : Prop where
  tokens : s.tokens = .ok ts
  next : ∃ r, s.next = (.ok (ts.head?.map Prod.fst), r) ∧ r.tokens = .ok ts.tail ∧
    r.location = (ts.head?.map Prod.snd).getD s.location
  peek : ∃ r, s.peek = (.ok (ts.head?.map Prod.fst), r) ∧ r.tokens = .ok ts ∧
    r.location = (ts.head?.map Prod.snd).getD s.location ∧
    r.peek = (.ok (ts.head?.map Prod.fst), r)
  pushBack : ∀ t location, (s.pushBack t location).tokens =
    .ok ((t, location.getD s.location) :: ts)
  push : ∀ i : Input, i.Flows →
    (s.push i).tokens = .ok (s.queue ++ i.delivery ++ ts.drop s.queue.length)
  close : s.close.tokens = .ok []

variable {s : Stream} {ts : List (Token × Location)}

/-! ## One operation -/

theorem next_tokens (h : s.tokens = .ok ts) :
    ∃ r, s.next = (.ok (ts.head?.map Prod.fst), r) ∧ r.tokens = .ok ts.tail ∧
      r.location = (ts.head?.map Prod.snd).getD s.location := by
  cases ts with
  | nil => exact ⟨s, next_of_nil h, h, rfl⟩
  | cons x xs => exact next_of_cons h

theorem peek_peek {r : Stream} {look : Option Token} (h : s.peek = (.ok look, r)) :
    r.peek = (.ok look, r) := by
  unfold peek at h
  split at h
  · next t q hn =>
    simp only [Prod.mk.injEq, Except.ok.injEq] at h
    obtain ⟨rfl, rfl⟩ := h
    simp [peek, next, pushBack]
  · next hno =>
    cases look with
    | some t => exact absurd h (hno t r)
    | none =>
      -- Nothing was left to look at, and a stream at its end stays as it is.
      have hr : r.next = (.ok none, r) := by
        unfold next at h ⊢
        repeat' split at h
        all_goals simp_all
      unfold peek
      rw [hr]

theorem tokens_pushBack (h : s.tokens = .ok ts) (t : Token) (location : Option Location) :
    (s.pushBack t location).tokens = .ok ((t, location.getD s.location) :: ts) := by
  obtain ⟨us, hd, rfl⟩ := tokens_eq_ok h
  unfold tokens pushBack
  dsimp only
  rw [hd]
  rfl

theorem tokens_push (h : s.tokens = .ok ts) {i : Input} (hi : i.Flows) :
    (s.push i).tokens = .ok (s.queue ++ i.delivery ++ ts.drop s.queue.length) := by
  obtain ⟨us, hd, rfl⟩ := tokens_eq_ok h
  have hs : ({ i with serial := s.pending.length + s.retired.length } : Input).supply =
      .ok i.remaining := by
    rw [Input.supply_serial, hi.supply]
  unfold tokens push
  dsimp only
  rw [deliveries_of_supply hs hd, List.drop_left, List.append_assoc]
  rfl

theorem tokens_close (s : Stream) : s.close.tokens = .ok [] := rfl

theorem refines_of_tokens (h : s.tokens = .ok ts) : s.Refines ts where
  tokens := h
  next := next_tokens h
  peek := by
    cases ts with
    | nil =>
      have hp := peek_of_nil h
      exact ⟨s, hp, h, rfl, peek_peek hp⟩
    | cons x xs =>
      obtain ⟨r, hp, ht, hl, -⟩ := peek_of_cons h
      exact ⟨r, hp, ht, hl, peek_peek hp⟩
  pushBack := tokens_pushBack h
  push _ hi := tokens_push h hi
  close := tokens_close s

theorem perform_tokens (h : s.tokens = .ok ts) {op : Operation}
    (hop : ∀ i, op = .push i → i.Flows) : ∃ us, (s.perform op).2.tokens = .ok us := by
  have hr := refines_of_tokens h
  cases op with
  | next =>
    obtain ⟨r, hn, ht, -⟩ := hr.next
    exact ⟨_, by rw [perform, hn]; exact ht⟩
  | peek =>
    obtain ⟨r, hp, ht, -⟩ := hr.peek
    exact ⟨_, by rw [perform, hp]; exact ht⟩
  | pushBack t location => exact ⟨_, hr.pushBack t location⟩
  | push i => exact ⟨_, hr.push i (hop i rfl)⟩
  | close => exact ⟨_, hr.close⟩

/-! ## Any number of operations -/

theorem performAll_tokens (h : s.tokens = .ok ts) {ops : List Operation}
    (hops : ∀ i, .push i ∈ ops → i.Flows) : ∃ us, (s.performAll ops).tokens = .ok us := by
  induction ops generalizing s ts with
  | nil => exact ⟨ts, h⟩
  | cons op ops ih =>
    have hop : ∀ i, op = .push i → i.Flows := fun i hi => hops i (by simp [hi])
    obtain ⟨us, hus⟩ := perform_tokens h hop
    exact ih hus fun i hi => hops i (by simp [hi])

theorem deliveries_serial (inputs : List Input) (hi : ∀ i ∈ inputs, i.Flows) (n : Nat) :
    deliveries ((inputs.zipIdx n).map fun (i, k) => { i with serial := k }) =
      .ok (inputs.flatMap Input.delivery) := by
  induction inputs generalizing n with
  | nil => rfl
  | cons i inputs ih =>
    obtain ⟨hflow, hrest⟩ := List.forall_mem_cons.mp hi
    have hs : ({ i with serial := n } : Input).supply = .ok i.remaining := by
      rw [Input.supply_serial, hflow.supply]
    rw [List.zipIdx_cons, List.map_cons, deliveries_of_supply hs (ih hrest _)]
    rfl

theorem tokens_ofInputs {inputs : List Input} (hi : ∀ i ∈ inputs, i.Flows) :
    (ofInputs inputs).tokens = .ok (inputs.flatMap Input.delivery) := by
  unfold tokens ofInputs
  dsimp only
  rw [deliveries_serial inputs hi 0]
  rfl

theorem tokens_single {i : Input} {es : List Event} (h : i.supply = .ok es) :
    (ofInputs [i]).tokens = .ok (located i.name i.line es) := by
  have hflows : ∀ j ∈ [i], j.Flows := by
    intro j hj
    rw [List.mem_singleton.mp hj]
    exact ⟨es, h⟩
  rw [tokens_ofInputs hflows]
  simp [Input.delivery, Input.remaining, h]

/-- A stream starts with the tokens of its inputs in turn, each input ended by one end token, and
after any operations it still refines a list of tokens. -/
theorem stream_refines_tokens {inputs : List Input} (hi : ∀ i ∈ inputs, i.Flows)
    {ops : List Operation} (hops : ∀ i, .push i ∈ ops → i.Flows) :
    (ofInputs inputs).Refines (inputs.flatMap Input.delivery) ∧
      (∀ i : Input, i.delivery.map Prod.fst = i.remaining.filterMap Event.token? ++ [Token.eof]) ∧
      ∃ ts, ((ofInputs inputs).performAll ops).Refines ts := by
  have hstart := tokens_ofInputs hi
  obtain ⟨ts, hts⟩ := performAll_tokens hstart hops
  exact ⟨refines_of_tokens hstart, fun i => located_tokens _ _ _, ts, refines_of_tokens hts⟩

/-- A name on line 3, and another input behind it. -/
def twoInputs : List Input :=
  [.tokens [.mark 3, .token ⟨"ident", "a"⟩] "first", .tokens [.token ⟨"ident", "b"⟩] "second"]

/-- What the first input is interrupted by. -/
def inserted : Input := .tokens [.mark 9, .token ⟨"ident", "c"⟩] "inner"

/-- Looks past the end of the first input, puts a token back, and pushes an input behind both. -/
def interruption : List Operation :=
  [.next, .peek, .pushBack ⟨"plus", "+"⟩ none, .push inserted]

theorem flows_list (es : List Event) (name : String) : (Input.tokens es name).Flows :=
  ⟨es, supply_list es name 0⟩

theorem stream_refines_tokens_interruption :
    ∃ ts, ((ofInputs twoInputs).performAll interruption).Refines ts ∧
      ts = [(⟨"plus", "+"⟩, ⟨"first", 3⟩), (.eof, ⟨"first", 3⟩), (⟨"ident", "c"⟩, ⟨"inner", 9⟩),
        (.eof, ⟨"inner", 9⟩), (⟨"ident", "b"⟩, ⟨"second", 0⟩), (.eof, ⟨"second", 0⟩)] := by
  have hi : ∀ i ∈ twoInputs, i.Flows := by
    simp only [twoInputs, List.forall_mem_cons]
    exact ⟨flows_list _ _, flows_list _ _, by simp⟩
  have hops : ∀ i, .push i ∈ interruption → i.Flows := by
    intro i h
    simp only [interruption, List.mem_cons, Operation.push.injEq, reduceCtorEq, List.not_mem_nil,
      false_or, or_false] at h
    exact h ▸ flows_list _ _
  obtain ⟨-, -, ts, hts⟩ := stream_refines_tokens hi hops
  have hlist : ((ofInputs twoInputs).performAll interruption).tokens.toOption = some
      [(⟨"plus", "+"⟩, ⟨"first", 3⟩), (.eof, ⟨"first", 3⟩), (⟨"ident", "c"⟩, ⟨"inner", 9⟩),
        (.eof, ⟨"inner", 9⟩), (⟨"ident", "b"⟩, ⟨"second", 0⟩), (.eof, ⟨"second", 0⟩)] := by
    decide +kernel
  rw [hts.tokens] at hlist
  exact ⟨ts, hts, Option.some.inj hlist⟩

end Stream

end ShiftReduce
