import ShiftReduce.Proofs.StreamRefinement

/-! # How many inputs are open

An input is opened when a token is asked of it, and closed with its end token. An input that is
pushed is read before the one below it, which may be open and stays so. So one input is open at a
time as long as no token is read off an input that came in the way of an open one.
-/

namespace ShiftReduce

namespace Input

@[simp]
theorem serial_read (i : Input) : i.read.2.serial = i.serial := by
  have hserial := congrArg (fun x => x.2.serial) (read_label i i.line i.serial)
  exact hserial

theorem serial_readToken (i : Input) : i.readToken.2.serial = i.serial := by
  have hr := serial_read i
  fun_induction readToken i with
  | case1 i f j h =>
    rw [h] at hr
    exact hr
  | case2 i j h =>
    rw [h] at hr
    exact hr
  | case3 i t j h =>
    rw [h] at hr
    exact hr
  | case4 i line j h ih =>
    rw [h] at hr
    exact (ih (serial_read _)).trans hr

theorem serial_ensureOpen {i j : Input} (h : Stream.ensureOpen i = .ok j) :
    j.serial = i.serial := by
  have hs := ensureOpen_serial i i.serial
  rw [h, Except.map, Except.ok.injEq] at hs
  have hserial := congrArg Input.serial hs
  exact hserial

/-- Whether a token is left in front of the end. -/
def hasToken (i : Input) : Bool := !(i.remaining.filterMap Event.token?).isEmpty

end Input

namespace Stream

variable {s r : Stream} {ts : List (Token × Location)} {op : Operation}

/-! ## What is done to the inputs -/

/-- What a call for a token does to the inputs. -/
inductive Moves (s r : Stream) : Prop
  | stays (hq : s.queue ≠ [] ∨ s.pending = []) (hp : r.pending = s.pending)
      (hr : r.retired = s.retired)
  | reads {i k : Input} {rest : List Input} (hq : s.queue = []) (hs : s.pending = i :: rest)
      (ht : i.hasToken = true) (hk : k.serial = i.serial) (ho : k.isOpen = true)
      (hp : r.pending = k :: rest) (hr : r.retired = s.retired)
  | ends {i k : Input} {rest : List Input} (hq : s.queue = []) (hs : s.pending = i :: rest)
      (ht : i.hasToken = false) (hk : k.serial = i.serial) (hp : r.pending = rest)
      (hr : r.retired = k.closed :: s.retired)

theorem next_moves (h : s.tokens = .ok ts) : Moves s s.next.2 := by
  obtain ⟨us, hd, -⟩ := tokens_eq_ok h
  unfold next
  cases hq : s.queue with
  | cons x queue => exact .stays (by simp [hq]) rfl rfl
  | nil =>
    cases hp : s.pending with
    | nil => exact .stays (Or.inr hp) rfl rfl
    | cons i rest =>
      rw [hp] at hd
      obtain ⟨es, -, hs, -, -⟩ := deliveries_cons hd
      obtain ⟨j, hj, hall⟩ := Input.supply_eq_ok hs
      obtain ⟨hn, hl, ho⟩ := Input.ensureOpen_keeps hj
      have htoken : i.hasToken = !(es.filterMap Event.token?).isEmpty := by
        simp only [Input.hasToken, Input.remaining, hs]
      have hserial := (Input.serial_readToken j).trans (Input.serial_ensureOpen hj)
      have hlist := located_tokens j.name j.line es
      simp only [hj]
      rcases Input.readToken_spec hall with ⟨k, hk, hloc⟩ | ⟨t, k, more, hk, -, hko, hloc⟩
      · rw [hk] at hserial
        have hnone : es.filterMap Event.token? = [] := by
          rw [hloc] at hlist
          simpa using hlist
        simp only [hk]
        exact .ends hq hp (by simp [htoken, hnone]) hserial rfl rfl
      · rw [hk] at hserial
        have hsome : es.filterMap Event.token? ≠ [] := by
          intro hnone
          rw [hloc, hnone, List.map_cons, List.nil_append, List.cons.injEq,
            List.map_eq_nil_iff] at hlist
          exact located_ne_nil _ _ _ hlist.2
        simp only [hk]
        exact .reads hq hp (by simp [htoken, hsome]) hserial (hko.trans ho) rfl rfl

theorem peek_moves (h : s.tokens = .ok ts) : Moves s s.peek.2 := by
  have hn := next_moves h
  have hp : s.peek.2.pending = s.next.2.pending ∧ s.peek.2.retired = s.next.2.retired := by
    unfold peek
    split <;> exact ⟨by simp_all [pushBack], by simp_all [pushBack]⟩
  cases hn with
  | stays hq hp' hr => exact .stays hq (hp.1.trans hp') (hp.2.trans hr)
  | reads hq hs ht hk ho hp' hr => exact .reads hq hs ht hk ho (hp.1.trans hp') (hp.2.trans hr)
  | ends hq hs ht hk hp' hr => exact .ends hq hs ht hk (hp.1.trans hp') (hp.2.trans hr)

/-! ## No input is lost -/

/-- All inputs that a stream has had, those still to be read first. -/
def all (s : Stream) : List Input := s.pending ++ s.retired

/-- A stream has had `n` inputs, and those that are done with are closed. -/
structure Kept (n : Nat) (s : Stream) : Prop where
  serials : (s.all.map Input.serial).Perm (List.range n)
  closed : ∀ i ∈ s.retired, i.isOpen = false

theorem Kept.length {n : Nat} (h : s.Kept n) : s.pending.length + s.retired.length = n := by
  have hlen := h.serials.length_eq
  rwa [List.length_map, List.length_range, all, List.length_append] at hlen

theorem Moves.kept {n : Nat} (h : Moves s r) (hs : s.Kept n) : r.Kept n := by
  have hserials := hs.serials
  cases h with
  | stays hq hp hr =>
    rw [all, ← hp, ← hr] at hserials
    exact ⟨hserials, by rw [hr]; exact hs.closed⟩
  | reads hq hs' ht hk ho hp hr =>
    rw [all, hs', ← hr, List.cons_append, List.map_cons, ← hk] at hserials
    refine ⟨?_, by rw [hr]; exact hs.closed⟩
    rw [all, hp]
    exact hserials
  | ends hq hs' ht hk hp hr =>
    rw [all, hs', List.cons_append, List.map_cons, ← hk, List.map_append] at hserials
    refine ⟨?_, ?_⟩
    · rw [all, hp, hr, List.map_append, List.map_cons]
      exact List.perm_middle.trans hserials
    · rw [hr]
      exact List.forall_mem_cons.mpr ⟨rfl, hs.closed⟩

theorem kept_push {n : Nat} (h : s.Kept n) (i : Input) : (s.push i).Kept (n + 1) := by
  refine ⟨?_, h.closed⟩
  have hserials := (h.serials.cons n).trans (List.perm_append_singleton n (List.range n)).symm
  rw [← List.range_succ, ← h.length] at hserials
  rw [← h.length]
  exact hserials

theorem kept_close {n : Nat} (h : s.Kept n) : s.close.Kept n := by
  refine ⟨?_, ?_⟩
  · have hclosed : s.close.all.map Input.serial = s.all.map Input.serial := by
      simp [close, all, Input.closed]
    rw [hclosed]
    exact h.serials
  · intro i hi
    rcases List.mem_append.mp hi with hi | hi
    · obtain ⟨j, -, rfl⟩ := List.mem_map.mp hi
      rfl
    · exact h.closed i hi

def Operation.isPush : Operation → Bool
  | .push _ => true
  | _ => false

theorem kept_perform {n : Nat} (h : s.tokens = .ok ts) (hs : s.Kept n) (op : Operation) :
    (s.perform op).2.Kept (n + [op].countP Operation.isPush) := by
  cases op with
  | next => exact (next_moves h).kept hs
  | peek => exact (peek_moves h).kept hs
  | pushBack t location => exact ⟨hs.serials, hs.closed⟩
  | push i => exact kept_push hs i
  | close => exact kept_close hs

theorem kept_ofInputs (inputs : List Input) : (ofInputs inputs).Kept inputs.length := by
  refine ⟨?_, by simp [ofInputs]⟩
  have hserials : (ofInputs inputs).all.map Input.serial = List.range inputs.length := by
    simp [ofInputs, all, Function.comp_def, List.zipIdx_map_snd, List.range_eq_range']
  rw [hserials]

/-! ## Open inputs -/

def openCount (s : Stream) : Nat := s.all.countP (·.isOpen)

/-- A call that reads a token off a closed input, while one behind it is open. -/
def Overlaps (s : Stream) (op : Operation) : Prop :=
  (op = .next ∨ op = .peek) ∧ s.queue = [] ∧
    ∃ i rest, s.pending = i :: rest ∧ i.isOpen = false ∧ i.hasToken = true ∧
      ∃ j ∈ rest, j.isOpen = true

theorem Kept.openCount_eq {n : Nat} (h : s.Kept n) :
    s.openCount = s.pending.countP (·.isOpen) := by
  have hretired : s.retired.countP (·.isOpen) = 0 := by
    rw [List.countP_eq_zero]
    intro i hi
    simp [h.closed i hi]
  rw [openCount, all, List.countP_append, hretired, Nat.add_zero]

theorem Moves.openCount_le (h : Moves s r) {n : Nat} (hs : s.Kept n) (hone : s.openCount ≤ 1)
    (hop : op = .next ∨ op = .peek) : r.openCount ≤ 1 ↔ ¬ s.Overlaps op := by
  have hr := h.kept hs
  rw [hr.openCount_eq]
  rw [hs.openCount_eq] at hone
  cases h with
  | stays hq hp hr =>
    rw [hp]
    refine ⟨fun _ => ?_, fun _ => hone⟩
    rintro ⟨-, hnil, i, rest, hcons, -⟩
    rcases hq with hq | hq
    · exact hq hnil
    · rw [hq] at hcons
      cases hcons
  | @reads i k rest hq hs' ht hk ho hp hr =>
    rw [hs', List.countP_cons] at hone
    rw [hp, List.countP_cons, if_pos ho]
    constructor
    · rintro hle ⟨-, -, i', rest', hcons, -, -, j, hj, hjo⟩
      rw [hs', List.cons.injEq] at hcons
      obtain ⟨rfl, rfl⟩ := hcons
      have hpos : 0 < rest.countP (·.isOpen) := List.countP_pos_iff.mpr ⟨j, hj, hjo⟩
      omega
    · intro hno
      cases hio : i.isOpen with
      | true =>
        rw [if_pos hio] at hone
        exact hone
      | false =>
        have hzero : rest.countP (·.isOpen) = 0 := by
          rw [List.countP_eq_zero]
          intro j hj hjo
          exact hno ⟨hop, hq, i, rest, hs', hio, ht, j, hj, hjo⟩
        omega
  | @ends i k rest hq hs' ht hk hp hr =>
    rw [hs', List.countP_cons] at hone
    rw [hp]
    refine ⟨fun _ => ?_, fun _ => by omega⟩
    rintro ⟨-, -, i', rest', hcons, -, ht', -⟩
    rw [hs', List.cons.injEq] at hcons
    obtain ⟨rfl, rfl⟩ := hcons
    rw [ht] at ht'
    cases ht'

theorem openCount_perform (h : s.tokens = .ok ts) {n : Nat} (hs : s.Kept n)
    (hone : s.openCount ≤ 1) (hop : ∀ i, op = .push i → i.isOpen = false) :
    (s.perform op).2.openCount ≤ 1 ↔ ¬ s.Overlaps op := by
  have hquiet : op ≠ .next → op ≠ .peek → ¬ s.Overlaps op :=
    fun hn hp ho => ho.1.elim hn hp
  cases op with
  | next => exact (next_moves h).openCount_le hs hone (Or.inl rfl)
  | peek => exact (peek_moves h).openCount_le hs hone (Or.inr rfl)
  | pushBack t location => exact ⟨fun _ => hquiet (by simp) (by simp), fun _ => hone⟩
  | push i =>
    refine ⟨fun _ => hquiet (by simp) (by simp), fun _ => ?_⟩
    have hi := hop i rfl
    simpa [perform, push, openCount, all, List.countP_cons, hi] using hone
  | close =>
    refine ⟨fun _ => hquiet (by simp) (by simp), fun _ => ?_⟩
    rw [perform, (kept_close hs).openCount_eq]
    exact Nat.zero_le 1

/-! ## Any number of operations -/

theorem deliveries_eq_ok {inputs : List Input} (h : deliveries inputs = .ok ts) :
    ts = inputs.flatMap Input.delivery := by
  induction inputs generalizing ts with
  | nil => exact (Except.ok.inj h).symm
  | cons i inputs ih =>
    obtain ⟨es, us, hs, hus, rfl⟩ := deliveries_cons h
    rw [List.flatMap_cons, ← ih hus, Input.delivery, Input.remaining, hs]

/-- After any operations all inputs are accounted for. Those still pending have their end token to
come, and the others are closed. -/
theorem performAll_kept {n : Nat} (h : s.tokens = .ok ts) (hs : s.Kept n) {ops : List Operation}
    (hops : ∀ i, .push i ∈ ops → i.Flows) :
    (s.performAll ops).Kept (n + ops.countP Operation.isPush) ∧
      (s.performAll ops).tokens = .ok ((s.performAll ops).queue ++
        (s.performAll ops).pending.flatMap Input.delivery) := by
  induction ops generalizing s ts n with
  | nil =>
    obtain ⟨us, hus, rfl⟩ := tokens_eq_ok h
    refine ⟨hs, ?_⟩
    rw [deliveries_eq_ok hus] at h
    exact h
  | cons op ops ih =>
    have hop : ∀ i, op = .push i → i.Flows := fun i hi => hops i (by simp [hi])
    obtain ⟨us, hus⟩ := perform_tokens h hop
    have hrest := ih hus (kept_perform h hs op) fun i hi => hops i (by simp [hi])
    rw [Nat.add_assoc, ← List.countP_append] at hrest
    exact hrest

theorem openCount_performAll (h : s.tokens = .ok ts) {n : Nat} (hs : s.Kept n)
    (hone : s.openCount ≤ 1) {ops : List Operation}
    (hops : ∀ i, .push i ∈ ops → i.Flows ∧ i.isOpen = false) :
    (∀ k, (s.performAll (ops.take k)).openCount ≤ 1) ↔
      ∀ k op, ops[k]? = some op → ¬ (s.performAll (ops.take k)).Overlaps op := by
  induction ops generalizing s ts n with
  | nil =>
    refine ⟨fun _ k op hk => by simp at hk, fun _ k => ?_⟩
    rw [List.take_nil]
    exact hone
  | cons op ops ih =>
    have hop : ∀ i, op = .push i → i.Flows ∧ i.isOpen = false :=
      fun i hi => hops i (by simp [hi])
    have hstep := openCount_perform h hs hone fun i hi => (hop i hi).2
    obtain ⟨us, hus⟩ := perform_tokens h fun i hi => (hop i hi).1
    have hrest := ih hus (kept_perform h hs op)
    constructor
    · intro hall k op' hk
      cases k with
      | zero =>
        cases hk
        exact hstep.mp (hall 1)
      | succ k =>
        have hnext := hrest (hstep.mpr (hstep.mp (hall 1))) fun i hi => hops i (by simp [hi])
        exact hnext.mp (fun k => hall (k + 1)) k op' hk
    · intro hno k
      have hle := hstep.mpr (hno 0 op rfl)
      cases k with
      | zero => exact hone
      | succ k =>
        have hnext := hrest hle fun i hi => hops i (by simp [hi])
        exact hnext.mpr (fun k op' hk => hno (k + 1) op' hk) k

theorem openCount_ofInputs {inputs : List Input} (hi : ∀ i ∈ inputs, i.isOpen = false) :
    (ofInputs inputs).openCount = 0 := by
  rw [openCount, List.countP_eq_zero]
  intro i hmem
  simp only [ofInputs, all, List.append_nil, List.mem_map] at hmem
  obtain ⟨⟨j, k⟩, hj, rfl⟩ := hmem
  simp [hi j (List.fst_mem_of_mem_zipIdx hj)]

/-- After any operations on closed inputs that can be read, every input that has given its end token
is closed. At no time are two inputs open, just if no token is read off a closed input while one
behind it is open. -/
theorem one_open_unless_overlapping {inputs : List Input}
    (hi : ∀ i ∈ inputs, i.Flows ∧ i.isOpen = false) {ops : List Operation}
    (hops : ∀ i, .push i ∈ ops → i.Flows ∧ i.isOpen = false) :
    let reached (k : Nat) : Stream := (ofInputs inputs).performAll (ops.take k)
    (∀ k, (reached k).Kept (inputs.length + (ops.take k).countP Operation.isPush) ∧
      (reached k).tokens =
        .ok ((reached k).queue ++ (reached k).pending.flatMap Input.delivery)) ∧
    ((∀ k, (reached k).openCount ≤ 1) ↔
      ∀ k op, ops[k]? = some op → ¬ (reached k).Overlaps op) := by
  intro reached
  have hts := tokens_ofInputs fun i hmem => (hi i hmem).1
  have hkept := kept_ofInputs inputs
  refine ⟨fun k => ?_, ?_⟩
  · exact performAll_kept hts hkept fun i hmem => (hops i (List.mem_of_mem_take hmem)).1
  · refine openCount_performAll hts hkept ?_ hops
    rw [openCount_ofInputs fun i hmem => (hi i hmem).2]
    exact Nat.zero_le 1

/-- An input with two names, and one that comes between them. -/
def outer : Input := .tokens [.token ⟨"ident", "a"⟩, .token ⟨"ident", "c"⟩] "outer"

def inner : Input := .tokens [.token ⟨"ident", "b"⟩] "inner"

theorem one_open_unless_overlapping_inTurn :
    let ops : List Operation := [.push inner, .next, .peek, .next, .next]
    ∀ k, ((ofInputs [outer]).performAll (ops.take k)).openCount ≤ 1 := by
  intro ops
  have hi : ∀ i ∈ [outer], i.Flows ∧ i.isOpen = false := by
    have houter : outer.Flows ∧ outer.isOpen = false := ⟨flows_list _ _, rfl⟩
    simpa using houter
  have hops : ∀ i, .push i ∈ ops → i.Flows ∧ i.isOpen = false := by
    have hinner : inner.Flows ∧ inner.isOpen = false := ⟨flows_list _ _, rfl⟩
    simpa [ops] using hinner
  refine (one_open_unless_overlapping hi hops).2.mpr ?_
  have hbehind : ∀ k < 5, ((ofInputs [outer]).performAll (ops.take k)).pending.tail.all
      (fun i => !i.isOpen) = true := by
    decide +kernel
  rintro k op hk ⟨-, -, i, rest, hp, -, -, j, hj, hopen⟩
  have hclosed := hbehind k (List.getElem?_eq_some_iff.mp hk).1
  rw [hp, List.tail_cons, List.all_eq_true] at hclosed
  have := hclosed j hj
  rw [hopen] at this
  cases this

/-- An input that is pushed while another one is open is opened beside it. -/
theorem two_open_when_interrupted :
    (outer.Flows ∧ outer.isOpen = false) ∧ (inner.Flows ∧ inner.isOpen = false) ∧
      ((ofInputs [outer]).performAll [.next, .push inner, .next]).openCount = 2 :=
  ⟨⟨flows_list _ _, rfl⟩, ⟨flows_list _ _, rfl⟩, by decide +kernel⟩

end Stream

end ShiftReduce
