import ShiftReduce.Proofs.ContextFree
import ShiftReduce.Proofs.ParseTrees

/-! # Values are evaluated trees

Values do not steer a machine. Whatever its rules compute, it takes the steps of a machine that
builds trees, and its values are what the trees come to, from the leaves up.
-/

namespace ShiftReduce

variable {V : Type}

/-! ## What a tree comes to -/

namespace ParseTree

variable (eval : Int → List (Operand V) → Except Refusal V)

mutual

/-- The value of a tree. The children are evaluated from left to right, then the rule is applied. -/
def evaluate : ParseTree → Except Refusal (Operand V)
  | .leaf text => .ok (.text text)
  | .node id children =>
    match evaluateAll children with
    | .error r => .error r
    | .ok operands => (eval id operands).map .value

def evaluateAll : List ParseTree → Except Refusal (List (Operand V))
  | [] => .ok []
  | t :: ts =>
    match evaluate t with
    | .error r => .error r
    | .ok x => (evaluateAll ts).map (x :: ·)

end

variable {eval}

theorem evaluateAll_eq_ok {ts : List ParseTree} {xs : List (Operand V)}
    (h : ts.map (evaluate eval) = xs.map .ok) : evaluateAll eval ts = .ok xs := by
  induction ts generalizing xs with
  | nil =>
    obtain rfl : xs = [] := by simpa using h.symm
    rfl
  | cons t ts ih =>
    cases xs with
    | nil => simp at h
    | cons x xs =>
      simp only [List.map_cons, List.cons.injEq] at h
      simp only [evaluateAll, h.1, ih h.2]
      rfl

end ParseTree

/-! ## Two machines -/

namespace Machine

/-- What the function answers that a step calls, `none` if it calls none. -/
def answer? (m : Machine V) (c : Config V) : Option (Except Refusal V) :=
  match c.stream.peek.1 with
  | .ok (some t) =>
    if m.skip.contains t.kind then none
    else
      match m.actionFor c.states.peek (some t) with
      | some (.reduce id) =>
        match m.rules.lookup id with
        | some (.production _ arity eval) =>
          if c.values.size < arity ∨ c.states.size < arity + 1 then none
          else some (eval ((c.values.top arity).map Symbol.operand))
        | _ => none
      | _ => none
  | _ => none

/-- A configuration with values, and one with trees that come to these values. -/
structure Mirrors (eval : Int → List (Operand V) → Except Refusal V) (c : Config V)
    (d : Config ParseTree) : Prop where
  states : d.states = c.states
  stream : d.stream = c.stream
  accepted : d.accepted = c.accepted
  error : d.error = c.error
  marks : d.values.items.map Symbol.mark = c.values.items.map Symbol.mark
  values : d.values.items.map (fun y => (ParseTree.ofSymbol y).evaluate eval) =
    c.values.items.map fun x => .ok x.operand

/-- Two machines that differ only in what their rules compute: values, or trees. -/
structure Twins (eval : Int → List (Operand V) → Except Refusal V) (R : Machine V)
    (T : Machine ParseTree) : Prop where
  table : T.table = R.table
  skip : T.skip = R.skip
  rules : ∀ id, (R.rules.lookup id = none ∧ T.rules.lookup id = none) ∨
    ∃ lhs arity, R.rules.lookup id = some (.production lhs arity (eval id)) ∧
      T.rules.lookup id = some (.production lhs arity (ParseTree.build id))

variable {eval : Int → List (Operand V) → Except Refusal V} {R : Machine V}
  {T : Machine ParseTree} {c : Config V} {d : Config ParseTree}

theorem twins_of_defineAll {ss ss' : List Signature} (hss : ss.Perm ss')
    (hR : Rules.empty.defineAll eval ss = .ok R.rules)
    (hT : Rules.empty.defineAll ParseTree.build ss' = .ok T.rules) (htable : T.table = R.table)
    (hskip : T.skip = R.skip) : Twins eval R T := by
  refine ⟨htable, hskip, fun id => ?_⟩
  cases hl : R.rules.lookup id with
  | none =>
    refine Or.inl ⟨rfl, Option.eq_none_iff_forall_ne_some.mpr fun r hr => ?_⟩
    obtain ⟨s, hs, -, rfl, -⟩ := Rules.lookup_defineAll hT hr
    rw [Rules.lookup_defineAll_of_mem hR (hss.mem_iff.mpr hs)] at hl
    cases hl
  | some r =>
    obtain ⟨s, hs, -, rfl, rfl⟩ := Rules.lookup_defineAll hR hl
    exact Or.inr ⟨_, _, rfl, Rules.lookup_defineAll_of_mem hT (hss.mem_iff.mp hs)⟩

namespace Mirrors

theorem size (h : Mirrors eval c d) : d.values.size = c.values.size := by
  simpa [Stack.size] using congrArg List.length h.marks

theorem traced (h : Mirrors eval c d) (text : String) :
    Mirrors eval (R.traced c text) (T.traced d text) := by
  obtain ⟨notes, hc, -⟩ := traced_eq R c text (.refl _)
  obtain ⟨notes', hd, -⟩ := traced_eq T d text (.refl _)
  rw [hc, hd]
  exact ⟨h.states, h.stream, h.accepted, h.error, h.marks, h.values⟩

theorem operands (h : Mirrors eval c d) (n : Nat) :
    ParseTree.evaluateAll eval ((d.values.top n).map ParseTree.ofSymbol) =
      .ok ((c.values.top n).map Symbol.operand) := by
  refine ParseTree.evaluateAll_eq_ok ?_
  have htop := congrArg (fun l => (l.take n).reverse) h.values
  simpa [Stack.top, Function.comp_def] using htop

theorem node (h : Mirrors eval c d) (lhs : String) {id : Int} {n : Nat} {v : V}
    (hv : eval id ((c.values.top n).map Symbol.operand) = .ok v) :
    Mirrors eval
      { c with values := (c.values.drop n).push (.nonterminal lhs v), states := c.states.drop n }
      { d with
        values := (d.values.drop n).push
          (.nonterminal lhs (.node id ((d.values.top n).map ParseTree.ofSymbol)))
        states := d.states.drop n } := by
  refine ⟨by rw [h.states], h.stream, h.accepted, h.error, ?_, ?_⟩
  · have hdrop := congrArg (List.drop n) h.marks
    simpa [Stack.push, Stack.drop, Symbol.mark] using hdrop
  · have hdrop := congrArg (List.drop n) h.values
    have hnode : (ParseTree.node id ((d.values.top n).map ParseTree.ofSymbol)).evaluate eval =
        .ok (.value v) := by
      simp only [ParseTree.evaluate, h.operands n, hv]
      rfl
    simpa [Stack.push, Stack.drop, ParseTree.ofSymbol, ParseTree.ofOperand, Symbol.operand, hnode]
      using hdrop

theorem shift (h : Mirrors eval c d) (t : Token) (target : Int) :
    Mirrors eval
      { c with
        values := c.values.push (.terminal t)
        states := c.states.push target
        stream := c.stream.next.2 }
      { d with
        values := d.values.push (.terminal t)
        states := d.states.push target
        stream := d.stream.next.2 } := by
  refine ⟨by rw [h.states], by rw [h.stream], h.accepted, h.error, ?_, ?_⟩
  · exact congrArg (Mark.terminal t.kind :: ·) h.marks
  · exact congrArg (Except.ok (.text t.text) :: ·) h.values

theorem syntaxError (hm : Twins eval R T) (h : Mirrors eval c d) (state : Option Int)
    (look : Option Token) : T.syntaxError d state look = R.syntaxError c state look := by
  unfold Machine.syntaxError
  rw [h.stream, hm.table]

end Mirrors

/-! ## One step -/

/-- The production with a number, if it is there and finds its operands, does not refuse them. -/
def Permits (m : Machine V) (c : Config V) (id : Int) : Prop :=
  ∀ ⦃lhs arity f⦄, m.rules.lookup id = some (.production lhs arity f) →
    ¬ (c.values.size < arity ∨ c.states.size < arity + 1) →
    ∀ r, f ((c.values.top arity).map Symbol.operand) ≠ .error r

theorem reduce_mirrors (hm : Twins eval R T) (h : Mirrors eval c d) {id : Int}
    (hcall : R.Permits c id) : Mirrors eval (R.reduce c id).2 (T.reduce d id).2 := by
  rcases hm.rules id with ⟨hl, hl'⟩ | ⟨lhs, arity, hl, hl'⟩
  · simp only [reduce, hl, hl']
    exact h
  by_cases hshort : c.values.size < arity ∨ c.states.size < arity + 1
  · have hshort' : d.values.size < arity ∨ d.states.size < arity + 1 := by
      rwa [h.size, h.states]
    simp only [reduce, hl, hl', Rule.reduce, hshort, hshort', if_true]
    exact h
  cases hv : eval id ((c.values.top arity).map Symbol.operand) with
  | error r => exact absurd hv (hcall hl hshort r)
  | ok v =>
    have hbuild : ParseTree.build id ((d.values.top arity).map Symbol.operand) =
        .ok (.node id ((d.values.top arity).map ParseTree.ofSymbol)) := by
      rw [ParseTree.build, List.map_map]
      rfl
    have hnode := h.node lhs hv
    rw [h.states] at hnode
    simp only [reduce, hl, hl', Rule.reduce, h.size, h.states, hshort, if_false, hv, hbuild,
      Stack.peek_push, Symbol.name, hm.table]
    split
    · exact hnode
    · split
      · exact hnode
      · next target _ =>
        have htraced := hnode.traced (R := R) (T := T) s!"reduce r{id} -> {lhs}, goto {target}"
        exact ⟨congrArg (Stack.push · target) htraced.states, htraced.stream, htraced.accepted,
          htraced.error, htraced.marks, htraced.values⟩

theorem act_mirrors (hm : Twins eval R T) (h : Mirrors eval c d) {state : Option Int}
    {look : Option Token}
    (hcall : ∀ id, R.actionFor state look = some (.reduce id) → R.Permits c id) :
    Mirrors eval (R.act c state look).2 (T.act d state look).2 := by
  have hact : T.actionFor state look = R.actionFor state look := by
    rw [actionFor, actionFor, hm.table]
  have htraced := h.traced (R := R) (T := T) (stepText state look (R.actionFor state look))
  obtain ⟨notes, -, hc⟩ := act_traced R c state look
  unfold act
  rw [hact]
  simp only [hc]
  rw [hc] at htraced
  generalize T.traced d _ = d at htraced
  split
  · exact htraced.shift _ _
  · next ha => exact reduce_mirrors hm htraced (hcall _ ha)
  · exact ⟨htraced.states, htraced.stream, rfl, htraced.error, htraced.marks, htraced.values⟩
  · exact htraced
  · rw [htraced.syntaxError hm]
    exact ⟨htraced.states, htraced.stream, htraced.accepted, rfl, htraced.marks, htraced.values⟩

theorem step_mirrors (hm : Twins eval R T) (h : Mirrors eval c d)
    (hcall : ∀ r, R.answer? c ≠ some (.error r)) : Mirrors eval (R.step c).2 (T.step d).2 := by
  have hstream : ∀ s, Mirrors eval { c with stream := s } { d with stream := s } :=
    fun s => ⟨h.states, rfl, h.accepted, h.error, h.marks, h.values⟩
  unfold step
  rw [h.stream, hm.skip]
  dsimp only
  rcases hp : c.stream.peek with ⟨f | look, s⟩
  · exact hstream s
  · dsimp only
    split
    · exact hstream _
    · next hk =>
      have hlook := hstream s
      rw [h.states] at hlook ⊢
      refine act_mirrors hm hlook fun id ha lhs arity f hl hshort r hr => ?_
      -- The action, the rule and the operands are those that the step would ask.
      refine hcall r ?_
      obtain ⟨t, rfl⟩ : ∃ t, look = some t := by
        cases look with
        | none => simp [actionFor] at ha
        | some t => exact ⟨t, rfl⟩
      simp only [answer?, hp, ha, hl, hshort, hr, if_false]
      exact if_neg hk

/-! ## Any number of steps -/

theorem mirrors_start (htable : T.table = R.table) (s : Stream) :
    Mirrors eval (R.start s) (T.start s) :=
  ⟨by simp [start, htable], rfl, rfl, rfl, rfl, rfl⟩

theorem after_mirrors (hm : Twins eval R T) (s : Stream) {n : Nat}
    (hcall : ∀ k < n, ∀ r, R.answer? (R.after k (R.start s)) ≠ some (.error r)) :
    Mirrors eval (R.after n (R.start s)) (T.after n (T.start s)) := by
  induction n with
  | zero => exact mirrors_start hm.table s
  | succ n ih =>
    simpa using step_mirrors hm (ih fun k hk => hcall k (by omega)) (hcall n (by omega))

/-- As long as no value is refused, a machine takes the steps of one that builds trees: the stacks
hold the same states and symbols, the streams, the acceptance and the error are the same, and the
values are what the trees come to. -/
theorem values_evaluate_trees (R : Machine V) (T : Machine ParseTree) {ss ss' : List Signature}
    (hss : ss.Perm ss') (hR : Rules.empty.defineAll eval ss = .ok R.rules)
    (hT : Rules.empty.defineAll ParseTree.build ss' = .ok T.rules) (htable : T.table = R.table)
    (hskip : T.skip = R.skip) (s : Stream) (n : Nat)
    (hn : ∀ k < n, ∀ r, R.answer? (R.after k (R.start s)) ≠ some (.error r)) :
    let c := R.after n (R.start s)
    let d := T.after n (T.start s)
    c.states = d.states ∧ c.values.toList.map Symbol.mark = d.values.toList.map Symbol.mark ∧
      c.stream = d.stream ∧ c.accepted = d.accepted ∧ c.error = d.error ∧
      c.values.toList.map (fun x => .ok x.operand) =
        d.values.toList.map fun y => (ParseTree.ofSymbol y).evaluate eval := by
  intro c d
  have h : Mirrors eval c d := after_mirrors (twins_of_defineAll hss hR hT htable hskip) _ hn
  refine ⟨h.states.symm, ?_, h.stream.symm, h.accepted.symm, h.error.symm, ?_⟩
  · simpa [Stack.toList] using h.marks.symm
  · simpa [Stack.toList] using h.values.symm

/-- A rule for one name, whose value is the length of the name. -/
def nameLength (_ : Int) : List (Operand Nat) → Except Refusal Nat
  | [.text name] => .ok name.length
  | _ => .error (.operands "expected a name")

/-- The machine for one name, with lengths instead of trees. -/
def oneLength : Machine Nat where
  table := oneName.table
  rules := ⟨[(1, .production "S" 1 (nameLength 1))]⟩

theorem values_evaluate_trees_oneName :
    let s := Stream.ofInputs [Input.tokens (nameOnLine.map .token) "<list>"]
    (∀ k < 4, ∀ r, oneLength.answer? (oneLength.after k (oneLength.start s)) ≠ some (.error r)) ∧
      (oneLength.after 4 (oneLength.start s)).values.toList = [.nonterminal "S" 1] ∧
      (oneName.after 4 (oneName.start s)).values.toList.map
        (fun y => (ParseTree.ofSymbol y).evaluate nameLength) = [.ok (.value 1)] := by
  intro s
  have hcall : ∀ k < 4, ∀ r,
      oneLength.answer? (oneLength.after k (oneLength.start s)) ≠ some (.error r) := by
    have hall : ∀ k < 4, (oneLength.answer? (oneLength.after k (oneLength.start s))).all
        (·.toOption.isSome) = true := by
      decide +kernel
    intro k hk r hr
    have hk := hall k hk
    rw [hr] at hk
    cases hk
  have hvalues : (oneLength.after 4 (oneLength.start s)).values.toList = [.nonterminal "S" 1] := by
    decide +kernel
  have hR : Rules.empty.defineAll nameLength [⟨1, "S", 1⟩] = .ok oneLength.rules := rfl
  have hT : Rules.empty.defineAll ParseTree.build [⟨1, "S", 1⟩] = .ok oneName.rules := rfl
  have h := values_evaluate_trees oneLength oneName (.refl _) hR hT rfl rfl s 4 hcall
  refine ⟨hcall, hvalues, ?_⟩
  rw [← h.2.2.2.2.2, hvalues]
  rfl

end Machine

end ShiftReduce
