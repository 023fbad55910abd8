import ShiftReduce.Proofs.Agreement
import ShiftReduce.Proofs.BundledSafety
import ShiftReduce.Proofs.FailedSteps

/-! # A run looks one token ahead

A run depends on the tokens that it takes and on the one that it looks at last. What lies behind
that token makes no difference, and the inputs that lie behind it are not opened.
-/

namespace ShiftReduce

namespace Stream

variable {s r x : Stream} {n : Nat}

/-! ## The first tokens of a stream -/

/-- The tokens that the next `n` calls deliver, each with its place, up to the first call that
delivers none. -/
def front : Nat → Stream → List (Token × Location)
  | 0, _ => []
  | n + 1, s =>
    match s.next with
    | (.ok (some t), r) => (t, r.location) :: front n r
    | _ => []

theorem front_of_next (h : r.next = s.next) (n : Nat) : r.front n = s.front n := by
  cases n with
  | zero => rfl
  | succ n => rw [front, front, h]

/-- Two streams deliver `n` tokens, and the same. -/
structure Shares (n : Nat) (s x : Stream) : Prop where
  front : s.front n = x.front n
  length : (s.front n).length = n

theorem next_of_length (h : (s.front (n + 1)).length = n + 1) :
    ∃ t q, s.next = (.ok (some t), q) ∧ s.front (n + 1) = (t, q.location) :: q.front n := by
  rcases hn : s.next with ⟨_ | (_ | t), q⟩
  · simp [front, hn] at h
  · simp [front, hn] at h
  · exact ⟨t, q, rfl, by rw [front, hn]⟩

theorem Shares.peek (h : Shares (n + 1) s x) :
    ∃ t, s.peek.1 = .ok (some t) ∧ x.peek.1 = .ok (some t) ∧
      s.peek.2.location = x.peek.2.location ∧ Shares (n + 1) s.peek.2 x.peek.2 ∧
      Shares n s.peek.2.next.2 x.peek.2.next.2 := by
  obtain ⟨t, q, hq, hs⟩ := next_of_length h.length
  obtain ⟨u, p, hp, hx⟩ := next_of_length (h.front ▸ h.length)
  have hsame := h.front
  rw [hs, hx, List.cons.injEq, Prod.mk.injEq] at hsame
  obtain ⟨⟨rfl, hplace⟩, hrest⟩ := hsame
  have hlen := h.length
  rw [hs, List.length_cons, Nat.add_right_cancel_iff] at hlen
  have hspeek : s.peek = (.ok (some t), q.pushBack t) := by simp [Stream.peek, hq]
  have hxpeek : x.peek = (.ok (some t), p.pushBack t) := by simp [Stream.peek, hp]
  have hsnext := (next_of_peek hspeek).1
  have hxnext := (next_of_peek hxpeek).1
  rw [hspeek, hxpeek]
  refine ⟨t, rfl, rfl, hplace, ⟨?_, ?_⟩, ?_⟩
  · rw [front_of_next hsnext, front_of_next hxnext]
    exact h.front
  · rw [front_of_next hsnext]
    exact h.length
  · rw [hsnext, hxnext, hq, hp]
    exact ⟨hrest, hlen⟩

/-! ## Inputs behind a stream -/

/-- A stream with more inputs behind its own. -/
def extend (s : Stream) (more : List Input) : Stream := { s with pending := s.pending ++ more }

theorem next_extend (h : s.next.1 ≠ .ok none) (more : List Input) :
    (s.extend more).next = (s.next.1, s.next.2.extend more) := by
  obtain ⟨pending, retired, queue, location⟩ := s
  cases queue with
  | cons y queue => rfl
  | nil =>
    cases pending with
    | nil => exact absurd rfl h
    | cons i rest =>
      simp only [next, extend, List.cons_append]
      cases ensureOpen i with
      | error f => rfl
      | ok j =>
        dsimp only
        rcases j.readToken with ⟨_ | (_ | t), k⟩ <;> rfl

theorem peek_extend (h : s.next.1 ≠ .ok none) (more : List Input) :
    (s.extend more).peek = (s.peek.1, s.peek.2.extend more) := by
  unfold peek
  rw [next_extend h]
  rcases hn : s.next with ⟨_ | (_ | t), q⟩
  · rfl
  · exact absurd (by rw [hn]) h
  · rfl

theorem front_extend (h : (s.front n).length = n) (more : List Input) :
    (s.extend more).front n = s.front n := by
  induction n generalizing s with
  | zero => rfl
  | succ n ih =>
    obtain ⟨t, q, hq, hs⟩ := next_of_length h
    have hnext := next_extend (s := s) (by rw [hq]; simp) more
    rw [hq] at hnext
    rw [hs, List.length_cons, Nat.add_right_cancel_iff] at h
    rw [hs, front, hnext]
    exact congrArg ((t, q.location) :: ·) (ih h)

/-- The inputs of a stream, with numbers from `n` on. -/
def numbered (n : Nat) (inputs : List Input) : List Input :=
  (inputs.zipIdx n).map fun (i, k) => { i with serial := k }

theorem ofInputs_append (before after : List Input) :
    ofInputs (before ++ after) = (ofInputs before).extend (numbered before.length after) := by
  simp [ofInputs, extend, numbered, List.zipIdx_append]

end Stream

namespace Machine

variable {V : Type} {m : Machine V} {c d e : Config V} {fuel : Nat}
  {r : Except Failure (Outcome V)}

/-! ## What a step does to its stream -/

theorem reduce_stream (m : Machine V) (c : Config V) (id : Int) :
    (m.reduce c id).2.stream = c.stream := by
  unfold reduce
  split
  · rfl
  split
  · rfl
  dsimp only
  split
  · rfl
  split
  · rfl
  split
  · rfl
  · exact stream_traced m _ _

theorem act_stream (m : Machine V) (c : Config V) (state : Option Int) (look : Option Token) :
    (m.act c state look).2.stream =
      match m.actionFor state look with
      | some (.shift _) => c.stream.next.2
      | _ => c.stream := by
  obtain ⟨notes, -, ht⟩ := act_traced m c state look
  unfold act
  dsimp only
  rw [ht]
  cases look with
  | none => simp [actionFor, Config.note]
  | some t =>
    cases m.actionFor state (some t) with
    | none => rfl
    | some action =>
      cases action with
      | shift q => rfl
      | reduce id => exact reduce_stream m _ id
      | accept => rfl
      | unknown label => rfl

theorem step_stream (m : Machine V) (c : Config V) :
    (m.step c).2.stream =
      if (m.taken c).isEmpty then c.stream.peek.2 else c.stream.peek.2.next.2 := by
  unfold step taken
  rcases c.stream.peek with ⟨f | (_ | t), s⟩
  · rfl
  · simp only [Option.map_none, Option.getD_none, Bool.false_eq_true, if_false, act_stream]
    simp [actionFor]
  · simp only [Option.map_some, Option.getD_some]
    split
    · rfl
    · rw [act_stream]
      cases m.actionFor c.states.peek (some t) with
      | none => rfl
      | some action => cases action <;> rfl

/-- What a stream is left as by a step that took some tokens. -/
def leftBy (taken : List Token) (s : Stream) : Stream :=
  if taken.isEmpty then s.peek.2 else s.peek.2.next.2

theorem taken_of_look {s : Stream} (h : s.peek.1 = c.stream.peek.1) :
    m.taken { c with stream := s } = m.taken c := by
  unfold taken
  rw [h]

theorem step_of_look {s : Stream} (hlook : s.peek.1 = c.stream.peek.1)
    (hplace : s.peek.2.location = c.stream.peek.2.location) :
    (m.step { c with stream := s }).1 = (m.step c).1 ∧
      (m.step { c with stream := s }).2 =
        { (m.step c).2 with stream := leftBy (m.taken c) s } := by
  have hstream := step_stream m { c with stream := s }
  rw [taken_of_look hlook] at hstream
  obtain ⟨hv, s', -, hs'⟩ : (m.step c).1 = (m.step { c with stream := s }).1 ∧
      (m.step c).2.Alike (fun _ _ => True) (m.step { c with stream := s }).2 := by
    unfold step
    dsimp only
    rcases hc : c.stream.peek with ⟨x, q⟩
    rcases hd : s.peek with ⟨y, q'⟩
    rw [hc, hd] at hlook hplace
    obtain rfl : y = x := hlook
    cases y with
    | error f => exact ⟨rfl, q', trivial, rfl⟩
    | ok look =>
      dsimp only
      split
      · exact ⟨rfl, _, trivial, rfl⟩
      · have halike : Config.Alike (fun a b => a.location = b.location) { c with stream := q }
            { c with stream := q' } := ⟨q', hplace.symm, rfl⟩
        exact act_alike id (fun _ => trivial) (fun _ => trivial) halike _ _
  refine ⟨hv.symm, ?_⟩
  rw [hs'] at hstream ⊢
  obtain rfl : s' = leftBy (m.taken c) s := hstream
  rfl

/-! ## The tokens that a run takes -/

/-- The tokens that a run takes in at most `fuel` steps. -/
def takenBy (m : Machine V) : Nat → Config V → List Token
  | 0, _ => []
  | fuel + 1, c =>
    match m.step c with
    | (.running, d) => m.taken c ++ m.takenBy fuel d
    | _ => []

theorem length_taken_le (m : Machine V) (c : Config V) : (m.taken c).length ≤ 1 := by
  unfold taken
  split
  · split
    · simp
    · split <;> simp
  · simp

/-- One stream delivers as many tokens as needed, and the other one delivers them too, before it
comes to more inputs. -/
def Ahead (more : List Input) (n : Nat) (s r : Stream) : Prop :=
  ∃ x, s.Shares n x ∧ r = x.extend more

theorem step_ahead {more : List Input} {n : Nat} (h : c.Alike (Ahead more (n + 1)) d) :
    (m.step c).1 = (m.step d).1 ∧
      (m.step c).2.Alike (Ahead more (n + 1 - (m.taken c).length)) (m.step d).2 := by
  obtain ⟨s, ⟨x, hx, rfl⟩, rfl⟩ := h
  obtain ⟨t, hs, hlook, hplace, hnow, hnext⟩ := hx.peek
  have hfound : x.next.1 ≠ .ok none := by
    obtain ⟨u, q, hq, -⟩ := Stream.next_of_length (hx.front ▸ hx.length)
    rw [hq]
    simp
  have hpeek := Stream.peek_extend hfound more
  obtain ⟨hv, hd⟩ := step_of_look (m := m) (c := c) (s := x.extend more)
    (by rw [hpeek, hlook, hs]) (by rw [hpeek]; exact hplace.symm)
  refine ⟨hv.symm, _, ?_, hd⟩
  have hone := length_taken_le m c
  rw [step_stream, leftBy]
  cases htaken : m.taken c with
  | nil => exact ⟨_, hnow, by rw [hpeek]; rfl⟩
  | cons u us =>
    rw [htaken, List.length_cons] at hone
    obtain rfl : us = [] := List.length_eq_zero_iff.mp (by omega)
    have hfound' : x.peek.2.next.1 ≠ .ok none := by
      have hp : x.peek = (.ok (some t), x.peek.2) := Prod.ext hlook rfl
      rw [(Stream.next_of_peek hp).1]
      exact hfound
    refine ⟨_, hnext, ?_⟩
    rw [hpeek]
    exact congrArg Prod.snd (Stream.next_extend hfound' more)

/-- A run ends in the same way on a stream that delivers the tokens taken and one more. -/
theorem run_ahead {more : List Input}
    (h : c.Alike (Ahead more ((m.takenBy fuel c).length + 1)) d)
    (hrun : m.run fuel c = some (r, e)) :
    ∃ e', m.run fuel d = some (r, e') ∧
      ∃ x : Stream, e' = { e with stream := x.extend more } := by
  have hsteps := run_of_steps (m := m)
    (R := fun fuel c d => c.Alike (Ahead more ((m.takenBy fuel c).length + 1)) d)
    (ρ := fun _ r => ∃ x : Stream, r = x.extend more) ?_ fuel h
  · obtain ⟨hnone, -⟩ | ⟨r', e', d', hc, hd, x, ⟨y, rfl⟩, rfl⟩ := hsteps
    · rw [hrun] at hnone
      cases hnone
    · rw [hrun, Option.some.injEq, Prod.mk.injEq] at hc
      obtain ⟨rfl, rfl⟩ := hc
      exact ⟨_, hd, y, rfl⟩
  intro fuel c d h
  obtain ⟨hv, hstep⟩ := step_ahead (m := m) h
  refine ⟨hv, hstep.mono fun ⟨x, _, hr⟩ => ⟨x, hr⟩, fun hgo => ?_⟩
  have htaken : m.takenBy (fuel + 1) c = m.taken c ++ m.takenBy fuel (m.step c).2 := by
    rw [takenBy]
    rcases hs : m.step c with ⟨v, c'⟩
    rw [hs] at hgo
    obtain rfl : v = .running := hgo
    rfl
  have hcount : (m.takenBy (fuel + 1) c).length + 1 - (m.taken c).length =
      (m.takenBy fuel (m.step c).2).length + 1 := by
    rw [htaken, List.length_append]
    omega
  rw [← hcount]
  exact hstep

end Machine

/-! ## Ends that are not taken -/

namespace Stream

variable {x : Stream}

/-- An input is left, or an end token that was put back. -/
def Guarded (x : Stream) : Prop := x.pending ≠ [] ∨ ∃ y ∈ x.queue, y.1.kind = "eof"

theorem Guarded.next_ne (h : x.Guarded) : x.next.1 ≠ .ok none := by
  unfold next
  cases hq : x.queue with
  | cons y queue => simp
  | nil =>
    cases hp : x.pending with
    | nil => simp [Guarded, hq, hp] at h
    | cons i rest =>
      dsimp only
      cases ensureOpen i with
      | error f => simp
      | ok j =>
        dsimp only
        rcases j.readToken with ⟨_ | (_ | t), k⟩ <;> simp

theorem Guarded.next (h : x.Guarded) :
    x.next.2.Guarded ∨ ∃ t, x.next.1 = .ok (some t) ∧ t.kind = "eof" := by
  unfold Stream.next
  cases hq : x.queue with
  | cons y queue =>
    rcases h with hp | ⟨z, hz, heof⟩
    · exact Or.inl (Or.inl hp)
    · rw [hq] at hz
      rcases List.mem_cons.mp hz with rfl | hz
      · exact Or.inr ⟨z.1, rfl, heof⟩
      · exact Or.inl (Or.inr ⟨z, hz, heof⟩)
  | nil =>
    cases hp : x.pending with
    | nil => simp [Guarded, hq, hp] at h
    | cons i rest =>
      dsimp only
      cases ensureOpen i with
      | error f => exact Or.inl h
      | ok j =>
        dsimp only
        rcases j.readToken with ⟨_ | (_ | t), k⟩
        · exact Or.inl (Or.inl (by simp))
        · exact Or.inr ⟨Token.eof, rfl, rfl⟩
        · exact Or.inl (Or.inl (by simp))

theorem Guarded.peek (h : x.Guarded) : x.peek.2.Guarded := by
  have hnext := h.next
  unfold Stream.peek
  rcases hn : x.next with ⟨_ | (_ | t), q⟩
  · rw [hn] at hnext
    rcases hnext with hq | ⟨t, ht, -⟩
    · exact hq
    · cases ht
  · exact absurd (by rw [hn]) h.next_ne
  · rw [hn] at hnext
    rcases hnext with (hp | ⟨y, hy, heof⟩) | ⟨u, hu, heof⟩
    · exact Or.inl hp
    · exact Or.inr ⟨y, List.mem_cons_of_mem _ hy, heof⟩
    · cases hu
      exact Or.inr ⟨_, List.mem_cons_self .., heof⟩

end Stream

namespace Machine

variable {V : Type} {m : Machine V} {c d : Config V}

/-- A machine that neither shifts an end token nor passes over it. -/
structure StopsAtEnd (m : Machine V) : Prop where
  shift : ∀ p q, m.table.action? p "eof" ≠ some (.shift q)
  skip : m.skip.contains "eof" = false

theorem look_of_taken (h : m.taken c ≠ []) : ∃ t, c.stream.peek.1 = .ok (some t) := by
  unfold taken at h
  split at h
  · next t hlook => exact ⟨t, hlook⟩
  · exact absurd rfl h

theorem StopsAtEnd.taken_nil (hm : m.StopsAtEnd) {t : Token}
    (hlook : c.stream.peek.1 = .ok (some t)) (heof : t.kind = "eof") : m.taken c = [] := by
  unfold taken
  rw [hlook]
  dsimp only
  rw [heof, hm.skip, if_neg (by simp)]
  split
  · next q ha =>
    obtain ⟨p, hp, hact⟩ := Option.bind_eq_some_iff.mp ha
    rw [Option.bind_some, heof] at hact
    exact absurd hact (hm.shift p q)
  · rfl

/-- Two streams have the same to deliver up to an end, whatever lies behind it. -/
def UpToEnd (s r : Stream) : Prop :=
  ∃ (x : Stream) (more more' : List Input), x.Guarded ∧ s = x.extend more ∧ r = x.extend more'

theorem step_upToEnd (hm : m.StopsAtEnd) (h : c.Alike UpToEnd d) :
    (m.step c).1 = (m.step d).1 ∧ (m.step c).2.Alike UpToEnd (m.step d).2 := by
  obtain ⟨s, ⟨x, more, more', hx, hc, rfl⟩, rfl⟩ := h
  have hpeek := Stream.peek_extend hx.next_ne more
  have hpeek' := Stream.peek_extend hx.next_ne more'
  obtain ⟨hv, hd⟩ := step_of_look (m := m) (c := c) (s := x.extend more')
    (by rw [hc, hpeek, hpeek']) (by rw [hc, hpeek, hpeek']; rfl)
  refine ⟨hv.symm, _, ?_, hd⟩
  rw [step_stream, leftBy, hc, hpeek, hpeek']
  split
  · exact ⟨x.peek.2, more, more', hx.peek, rfl, rfl⟩
  · next htaken =>
    have hne : m.taken c ≠ [] := fun hnil => htaken (by rw [hnil]; rfl)
    obtain ⟨t, hlook⟩ := look_of_taken hne
    have hp : x.peek = (.ok (some t), x.peek.2) := by
      rw [hc, hpeek] at hlook
      exact Prod.ext hlook rfl
    obtain ⟨hnext, hfirst⟩ := Stream.next_of_peek hp
    have hguarded : x.peek.2.next.2.Guarded := by
      rw [hnext]
      refine hx.next.resolve_right ?_
      rintro ⟨u, hu, heof⟩
      rw [hfirst, Except.ok.injEq, Option.some.injEq] at hu
      exact hne (hm.taken_nil hlook (hu ▸ heof))
    have hfound : x.peek.2.next.1 ≠ .ok none := by
      rw [hnext, hfirst]
      simp
    exact ⟨_, more, more', hguarded, congrArg Prod.snd (Stream.next_extend hfound more),
      congrArg Prod.snd (Stream.next_extend hfound more')⟩

theorem run_upToEnd (hm : m.StopsAtEnd) (h : c.Alike UpToEnd d) (fuel : Nat) :
    (m.run fuel c).map observed = (m.run fuel d).map observed :=
  run_of_alike (fun h => step_upToEnd hm h) h fuel

theorem upToEnd_start (m : Machine V) (i : Input) (rest rest' : List Input) :
    (m.start (.ofInputs (i :: rest))).Alike UpToEnd (m.start (.ofInputs (i :: rest'))) := by
  refine ⟨_, ⟨.ofInputs [i], Stream.numbered 1 rest, Stream.numbered 1 rest', ?_, ?_, ?_⟩, rfl⟩
  · exact Or.inl (by simp [Stream.ofInputs])
  · exact Stream.ofInputs_append [i] rest
  · exact Stream.ofInputs_append [i] rest'

end Machine

def Action.isShift : Action → Bool
  | .shift _ => true
  | _ => false

/-- Whether a table shifts an end token in some state. -/
def Table.shiftsEnd (t : Table) : Bool := t.actions.any fun e => e.1.2 == "eof" && e.2.isShift

namespace Machine

variable {V : Type} {m : Machine V}

theorem stopsAtEnd (ht : m.table.shiftsEnd = false) (hk : m.skip.contains "eof" = false) :
    m.StopsAtEnd := by
  refine ⟨fun p q ha => ?_, hk⟩
  rw [Table.shiftsEnd, List.any_eq_false] at ht
  exact ht _ (Table.mem_actions ha) rfl

/-- A run that ended after it took `k` tokens ends in the same way on all inputs that deliver these
tokens and the next one, at the same places, and it leaves alone the inputs behind the one that
delivers the last of them. So a machine that stops at an end depends on its first input only, and
the machines of the bundled grammars do. -/
theorem run_looks_one_ahead (m : Machine V) :
    (∀ inputs fuel r d, m.run fuel (m.start (.ofInputs inputs)) = some (r, d) →
      let k := (m.takenBy fuel (m.start (.ofInputs inputs))).length
      ((Stream.ofInputs inputs).front (k + 1)).length = k + 1 →
      ∀ others, (Stream.ofInputs others).front (k + 1) = (Stream.ofInputs inputs).front (k + 1) →
        ∃ d', m.run fuel (m.start (.ofInputs others)) = some (r, d') ∧
          observed (r, d') = observed (r, d) ∧
          ∀ before after, others = before ++ after →
            ((Stream.ofInputs before).front (k + 1)).length = k + 1 →
            Stream.numbered before.length after <:+ d'.stream.pending) ∧
    (m.StopsAtEnd → ∀ fuel i rest rest',
      (m.run fuel (m.start (.ofInputs (i :: rest)))).map observed =
        (m.run fuel (m.start (.ofInputs (i :: rest')))).map observed) ∧
    ∀ g ∈ Grammar.bundled, ∃ t, g.table = .ok t ∧ ∀ debug,
      StopsAtEnd { table := t, rules := g.rules, debug := debug } := by
  refine ⟨?_, fun hm fuel i rest rest' => run_upToEnd hm (upToEnd_start m i rest rest') fuel, ?_⟩
  · intro inputs fuel r d hrun k hlen others hsame
    -- The inputs behind the last token are any that can be split off, or none.
    have hsplit : ∀ before after, others = before ++ after →
        ((Stream.ofInputs before).front (k + 1)).length = k + 1 →
        ∃ d', m.run fuel (m.start (.ofInputs others)) = some (r, d') ∧
          ∃ x : Stream,
            d' = { d with stream := x.extend (Stream.numbered before.length after) } := by
      rintro before after rfl hbefore
      have hfront := Stream.front_extend hbefore (Stream.numbered before.length after)
      rw [← Stream.ofInputs_append, hsame] at hfront
      refine run_ahead ⟨_, ⟨.ofInputs before, ⟨hfront, hlen⟩, ?_⟩, rfl⟩ hrun
      exact Stream.ofInputs_append before after
    obtain ⟨d', hd', x, hx⟩ := hsplit others [] (by simp) (by rw [hsame]; exact hlen)
    refine ⟨d', hd', by rw [hx]; rfl, ?_⟩
    intro before after hothers hbefore
    obtain ⟨d'', hd'', y, hy⟩ := hsplit before after hothers hbefore
    rw [hd', Option.some.injEq, Prod.mk.injEq] at hd''
    rw [hd''.2, hy]
    exact List.suffix_append _ _
  · intro g hg
    simp only [Grammar.bundled, List.mem_cons, List.not_mem_nil, or_false] at hg
    have hs : Settings.table.shiftsEnd = false := by decide
    have hn : Nesting.table.shiftsEnd = false := by decide
    rcases hg with rfl | rfl
    · exact ⟨_, Settings.table_settings, fun debug => stopsAtEnd hs rfl⟩
    · exact ⟨_, Nesting.table_nesting, fun debug => stopsAtEnd hn rfl⟩

/-- A name and a number. -/
def onePair : List Input :=
  [.tokens [.mark 2, .token ⟨"ident", "x"⟩, .token ⟨"integer", "1"⟩] "in"]

/-- An input that cannot be read does no harm behind the end of another one. -/
theorem run_looks_one_ahead_unreadable :
    let m := Nesting.machine false
    ∃ r d d', m.run 7 (m.start (.ofInputs onePair)) = some (r, d) ∧
      m.run 7 (m.start (.ofInputs (onePair ++ [.unreadable "broken"]))) = some (r, d') ∧
      observed (r, d') = observed (r, d) ∧
      Stream.numbered 1 [.unreadable "broken"] <:+ d'.stream.pending := by
  intro m
  have hends : (m.run 7 (m.start (.ofInputs onePair))).isSome = true := by decide +kernel
  obtain ⟨⟨r, d⟩, hrun⟩ := Option.isSome_iff_exists.mp hends
  have htaken : (m.takenBy 7 (m.start (.ofInputs onePair))).length = 2 := by decide +kernel
  have hlen : ((Stream.ofInputs onePair).front 3).length = 3 := by decide +kernel
  have h := (run_looks_one_ahead m).1 onePair 7 r d hrun
  rw [htaken] at h
  obtain ⟨d', hd', hobs, hrest⟩ := h hlen (onePair ++ [.unreadable "broken"]) (by decide +kernel)
  exact ⟨r, d, d', hrun, hd', hobs, hrest onePair _ rfl hlen⟩

end Machine

end ShiftReduce
