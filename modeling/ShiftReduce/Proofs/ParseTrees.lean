import ShiftReduce.Proofs.Delivery
import ShiftReduce.Proofs.Runs

/-! # Nothing is lost, doubled or moved

Rules that build trees show what becomes of the input. The leaves of the trees on the stack are the
tokens taken so far, in their order, but for those that are passed over, and the tokens taken and
those still to come make up the input.
-/

namespace ShiftReduce

/-! ## Trees -/

inductive ParseTree where
  | leaf (text : String)
  | node (rule : Int) (children : List ParseTree)

namespace ParseTree

mutual

def leaves : ParseTree → List String
  | .leaf text => [text]
  | .node _ children => leavesOf children

def leavesOf : List ParseTree → List String
  | [] => []
  | t :: ts => leaves t ++ leavesOf ts

end

theorem leavesOf_eq (ts : List ParseTree) : leavesOf ts = ts.flatMap leaves := by
  induction ts with
  | nil => rfl
  | cons t ts ih => rw [leavesOf, ih, List.flatMap_cons]

def ofOperand : Operand ParseTree → ParseTree
  | .text s => .leaf s
  | .value t => t

def ofSymbol (x : Symbol ParseTree) : ParseTree := ofOperand x.operand

/-- The value of a rule that builds trees: a node over what the rule sees. -/
def build (id : Int) (operands : List (Operand ParseTree)) : Except Refusal ParseTree :=
  .ok (.node id (operands.map ofOperand))

/-- Every node has as many children as the rule with its number was declared with. -/
inductive Proper (ss : List Signature) : ParseTree → Prop
  | leaf (text : String) : Proper ss (.leaf text)
  | node {s : Signature} {children : List ParseTree} (hs : s ∈ ss)
      (hlen : (children.length : Int) = s.arity) (hc : ∀ t ∈ children, Proper ss t) :
      Proper ss (.node s.id children)

end ParseTree

/-! ## The tokens taken -/

def Verdict.isFailed : Verdict → Bool
  | .failed _ => true
  | _ => false

namespace Machine

section Taken

variable {V : Type} {m : Machine V}

theorem isFailed_of_running {n : Nat} {c : Config V}
    (h : ∀ k < n, m.verdictAt k c = .running) : ∀ k < n, (m.verdictAt k c).isFailed = false := by
  intro k hk
  rw [h k hk]
  rfl

/-- The token that a step takes off the stream: one that is passed over, or one that is shifted. -/
def taken (m : Machine V) (c : Config V) : List Token :=
  match c.stream.peek.1 with
  | .ok (some t) =>
    if m.skip.contains t.kind then [t]
    else
      match m.actionFor c.states.peek (some t) with
      | some (.shift _) => [t]
      | _ => []
  | _ => []

def consumed (m : Machine V) : Nat → Config V → List Token
  | 0, _ => []
  | n + 1, c => m.taken c ++ m.consumed n (m.step c).2

@[simp]
theorem consumed_succ (m : Machine V) (n : Nat) (c : Config V) :
    m.consumed (n + 1) c = m.consumed n c ++ m.taken (m.after n c) := by
  induction n generalizing c with
  | zero => simp [consumed, after]
  | succ n ih =>
    rw [consumed, ih, ← List.append_assoc]
    rfl

theorem taken_skip {c : Config V} {t : Token} {s : Stream} (hp : c.stream.peek = (.ok (some t), s))
    (hk : m.skip.contains t.kind = true) : m.taken c = [t] := by
  simp [taken, hp, List.contains_iff_mem.mp hk]

theorem taken_act {c : Config V} {t : Token} {s : Stream} {p : Int} {action : Action}
    (hp : c.stream.peek = (.ok (some t), s)) (hk : m.skip.contains t.kind = false)
    (hs : c.states.peek = some p) (ha : m.table.action? p t.kind = some action) :
    m.taken c = match action with
      | .shift _ => [t]
      | _ => [] := by
  simp only [taken, hp, hk, actionFor, hs, ha, Option.bind_some]
  cases action <;> rfl

theorem taken_none {c : Config V} {look : Option Token} {s : Stream}
    (hp : c.stream.peek = (.ok look, s)) (hk : ∀ t ∈ look, m.skip.contains t.kind = false)
    (ha : m.actionFor c.states.peek look = none) : m.taken c = [] := by
  cases look with
  | none => simp [taken, hp]
  | some t => simp only [taken, hp, hk t rfl, ha]; rfl

theorem tokens_taken {s r : Stream} {t : Token} {ts : List (Token × Location)}
    (h : s.tokens = .ok ts) (hp : s.peek = (.ok (some t), r)) :
    ∃ rest, r.next.2.tokens = .ok rest ∧ [t] ++ rest.map Prod.fst = ts.map Prod.fst := by
  obtain ⟨hlook, -, hnext⟩ := Stream.peek_tokens h hp
  cases ts with
  | nil => simp at hlook
  | cons x xs => exact ⟨xs, hnext, by simpa using hlook⟩

theorem Effect.taken_append {c d : Config V} {v : Verdict} (he : Effect m c v d)
    (hv : v.isFailed = false) {ts : List (Token × Location)} (hts : c.stream.tokens = .ok ts) :
    ∃ rest, d.stream.tokens = .ok rest ∧ m.taken c ++ rest.map Prod.fst = ts.map Prod.fst := by
  cases he with
  | broken hp => simp [Verdict.isFailed] at hv
  | skip hp hk =>
    rw [taken_skip hp hk]
    exact tokens_taken hts hp
  | shift hp hk hs ha hn =>
    rw [taken_act hp hk hs ha]
    exact tokens_taken hts hp
  | reduce hp hk hs ha hr hg hn =>
    rw [taken_act hp hk hs ha]
    exact ⟨ts, (Stream.peek_tokens hts hp).2.1, rfl⟩
  | accept hp hk hs ha hn =>
    rw [taken_act hp hk hs ha]
    exact ⟨ts, (Stream.peek_tokens hts hp).2.1, rfl⟩
  | reject hp hk ha he hn =>
    rw [taken_none hp hk ha]
    exact ⟨ts, (Stream.peek_tokens hts hp).2.1, rfl⟩
  | stuck hp hk hs ha ho hn => simp [Verdict.isFailed] at hv
  | lost hp hk hs ha hr hg hn => simp [Verdict.isFailed] at hv

theorem consumed_append (hr : m.rules.AllProductions) {c : Config V}
    {ts : List (Token × Location)} (hts : c.stream.tokens = .ok ts) {n : Nat}
    (hv : ∀ k < n, (m.verdictAt k c).isFailed = false) :
    ∃ rest, (m.after n c).stream.tokens = .ok rest ∧
      m.consumed n c ++ rest.map Prod.fst = ts.map Prod.fst := by
  induction n with
  | zero => exact ⟨ts, hts, rfl⟩
  | succ n ih =>
    obtain ⟨rest, hrest, happ⟩ := ih fun k hk => hv k (by omega)
    obtain ⟨rest', hrest', htaken⟩ :=
      (step_effect hr (m.after n c)).taken_append (hv n (by omega)) hrest
    exact ⟨rest', by simpa using hrest', by simp [htaken, happ]⟩

end Taken

/-! ## The trees on the stack -/

section Trees

variable {m : Machine ParseTree} {ss : List Signature}

def leavesOn (values : Stack (Symbol ParseTree)) : List String :=
  values.toList.flatMap fun x => (ParseTree.ofSymbol x).leaves

@[simp]
theorem leavesOn_push (values : Stack (Symbol ParseTree)) (x : Symbol ParseTree) :
    leavesOn (values.push x) = leavesOn values ++ (ParseTree.ofSymbol x).leaves := by
  simp [leavesOn]

theorem leavesOn_node (values : Stack (Symbol ParseTree)) (id : Int) (lhs : String) (n : Nat) :
    leavesOn ((values.drop n).push
        (.nonterminal lhs (.node id ((values.top n).map ParseTree.ofSymbol)))) =
      leavesOn values := by
  rw [leavesOn_push, ParseTree.ofSymbol, Symbol.operand, ParseTree.ofOperand, ParseTree.leaves,
    ParseTree.leavesOf_eq, List.flatMap_map, leavesOn, leavesOn, ← List.flatMap_append,
    Stack.toList_drop_append_top]

def kept (m : Machine ParseTree) (ts : List Token) : List String :=
  (m.unskipped ts).map Token.text

theorem Reduction.builds (hr : Rules.empty.defineAll ParseTree.build ss = .ok m.rules)
    {c : Config ParseTree} {id e : Int} {lhs : String} {arity : Nat} {v : ParseTree}
    (h : Reduction m c id lhs arity e v) :
    v = .node id ((c.values.top arity).map ParseTree.ofSymbol) ∧
      ∃ s ∈ ss, s.id = id ∧ s.arity = arity := by
  obtain ⟨eval, hl, hv⟩ := h.rule
  obtain ⟨s, hs, ha, hid, hrule⟩ := Rules.lookup_defineAll hr hl
  injection hrule with _ harity heval
  rw [heval, ParseTree.build, List.map_map] at hv
  exact ⟨(Except.ok.inj hv).symm, s, hs, hid, by omega⟩

theorem Effect.leaves (hr : Rules.empty.defineAll ParseTree.build ss = .ok m.rules)
    {c d : Config ParseTree} {v : Verdict} (he : Effect m c v d) (hv : v.isFailed = false) :
    leavesOn d.values = leavesOn c.values ++ m.kept (m.taken c) := by
  cases he with
  | broken hp => simp [Verdict.isFailed] at hv
  | skip hp hk => simp [taken_skip hp hk, kept, unskipped_cons_of_skip hk]
  | shift hp hk hs ha hn =>
    rw [taken_act hp hk hs ha, kept, unskipped_cons_of_not_skip hk, leavesOn_push]
    rfl
  | reduce hp hk hs ha hred hg hn =>
    rw [taken_act hp hk hs ha, (hred.builds hr).1, leavesOn_node]
    exact (List.append_nil _).symm
  | accept hp hk hs ha hn => simp [taken_act hp hk hs ha, kept]
  | reject hp hk ha he hn => simp [taken_none hp hk ha, kept]
  | stuck hp hk hs ha ho hn => simp [Verdict.isFailed] at hv
  | lost hp hk hs ha hr hg hn => simp [Verdict.isFailed] at hv

theorem Effect.proper (hr : Rules.empty.defineAll ParseTree.build ss = .ok m.rules)
    {c d : Config ParseTree} {v : Verdict} (he : Effect m c v d) (hv : v.isFailed = false)
    (hc : ∀ x ∈ c.values.items, (ParseTree.ofSymbol x).Proper ss) :
    ∀ x ∈ d.values.items, (ParseTree.ofSymbol x).Proper ss := by
  cases he with
  | broken hp => exact hc
  | skip hp hk => exact hc
  | shift hp hk hs ha hn =>
    intro x hx
    rcases List.mem_cons.mp hx with rfl | hx
    · exact .leaf _
    · exact hc x hx
  | reduce hp hk hs ha hred hg hn =>
    intro x hx
    rcases List.mem_cons.mp hx with rfl | hx
    · obtain ⟨rfl, s, hs, rfl, harity⟩ := hred.builds hr
      refine .node hs ?_ ?_
      · have := hred.values
        rw [harity, List.length_map, Stack.length_top]
        omega
      · intro t ht
        obtain ⟨y, hy, rfl⟩ := List.mem_map.mp ht
        exact hc y (Stack.mem_of_mem_top hy)
    · exact hc x (List.mem_of_mem_drop hx)
  | accept hp hk hs ha hn => exact hc
  | reject hp hk ha he hn => exact hc
  | stuck hp hk hs ha ho hn => exact hc
  | lost hp hk hs ha hr hg hn => simp [Verdict.isFailed] at hv

theorem after_leaves (hr : Rules.empty.defineAll ParseTree.build ss = .ok m.rules) (s : Stream)
    {n : Nat} (hv : ∀ k < n, (m.verdictAt k (m.start s)).isFailed = false) :
    leavesOn (m.after n (m.start s)).values = m.kept (m.consumed n (m.start s)) := by
  induction n with
  | zero => rfl
  | succ n ih =>
    have he := step_effect (Rules.allProductions_defineAll hr) (m.after n (m.start s))
    have hstep := he.leaves hr (hv n (by omega))
    rw [ih fun k hk => hv k (by omega)] at hstep
    simpa [kept] using hstep

theorem after_proper (hr : Rules.empty.defineAll ParseTree.build ss = .ok m.rules) (s : Stream)
    {n : Nat} (hv : ∀ k < n, (m.verdictAt k (m.start s)).isFailed = false) :
    ∀ x ∈ (m.after n (m.start s)).values.toList, (ParseTree.ofSymbol x).Proper ss := by
  have hstep : ∀ c : Config ParseTree, (∀ x ∈ c.values.items, (ParseTree.ofSymbol x).Proper ss) →
      (m.step c).1.isFailed = false →
      ∀ x ∈ (m.step c).2.values.items, (ParseTree.ofSymbol x).Proper ss :=
    fun c hc hv => (step_effect (Rules.allProductions_defineAll hr) c).proper hr hv hc
  intro x hx
  refine after_invariant (P := fun v => v.isFailed = false) hstep ?_ hv x (List.mem_reverse.mp hx)
  intro y hy
  simp [start, Stack.ofList] at hy

/-- The leaves on the stack are the tokens taken and not passed over, these and the tokens to come
are the input, and every node has the children that its rule was declared with. What a machine
accepts is one such tree over the tokens in front of the one at which it accepts. -/
theorem input_kept_in_order (m : Machine ParseTree)
    (hr : Rules.empty.defineAll ParseTree.build ss = .ok m.rules) {inputs : List Input}
    {ts : List (Token × Location)} (hs : (Stream.ofInputs inputs).tokens = .ok ts) :
    (∀ n, (∀ k < n, (m.verdictAt k (m.start (.ofInputs inputs))).isFailed = false) →
      leavesOn (m.after n (m.start (.ofInputs inputs))).values =
        m.kept (m.consumed n (m.start (.ofInputs inputs))) ∧
      (∃ rest, (m.after n (m.start (.ofInputs inputs))).stream.tokens = .ok rest ∧
        m.consumed n (m.start (.ofInputs inputs)) ++ rest.map Prod.fst = ts.map Prod.fst) ∧
      ∀ x ∈ (m.after n (m.start (.ofInputs inputs))).values.toList,
        (ParseTree.ofSymbol x).Proper ss) ∧
    ∀ fuel v d, m.run fuel (m.start (.ofInputs inputs)) = some (.ok (.accepted v), d) →
      ∃ before look rest p, ts.map Prod.fst = before ++ look.1 :: rest.map Prod.fst ∧
        d.stream.tokens = .ok (look :: rest) ∧
        d.states.peek = some p ∧ m.table.action? p look.1.kind = some .accept ∧
        (ParseTree.ofOperand v).leaves = m.kept before ∧ (ParseTree.ofOperand v).Proper ss := by
  have hprod := Rules.allProductions_defineAll hr
  refine ⟨fun n hv => ⟨after_leaves hr _ hv, consumed_append hprod hs hv, after_proper hr _ hv⟩, ?_⟩
  intro fuel v d hrun
  obtain ⟨n, t, p, r, hgo, hpeek, hstate, haccept, hvalues, hstates, rfl, x, hx, rfl⟩ :=
    run_accepts hprod hrun
  have hv : ∀ k < n, (m.verdictAt k (m.start (.ofInputs inputs))).isFailed = false := by
    intro k hk
    rw [hgo k hk]
    rfl
  have hleaves := after_leaves hr _ hv
  have hproper := after_proper hr _ hv
  obtain ⟨rest, hrest, happ⟩ := consumed_append hprod hs hv
  obtain ⟨hlook, htokens, -⟩ := Stream.peek_tokens hrest hpeek
  rw [← hvalues] at hleaves hproper
  rw [leavesOn, Stack.toList, hx] at hleaves
  cases rest with
  | nil => simp at hlook
  | cons look rest =>
    simp only [List.head?_cons, Option.map_some, Option.some.injEq] at hlook
    subst hlook
    refine ⟨_, look, rest, p, by rw [← happ]; rfl, htokens, by rw [hstates, hstate], haccept, ?_, ?_⟩
    · simpa [ParseTree.ofSymbol] using hleaves
    · exact hproper x (by simp [Stack.toList, hx])

/-- A machine for one name, which stands for `S`. -/
def oneName : Machine ParseTree where
  table :=
    { actions := [((0, "ident"), .shift 1), ((1, "eof"), .reduce 1), ((2, "eof"), .accept)]
      gotos := [((0, "S"), 2)] }
  rules := ⟨[(1, .production "S" 1 (ParseTree.build 1))]⟩

/-- A line end that is passed over, and a name. -/
def nameOnLine : List Token := [⟨"nl", "\n"⟩, ⟨"ident", "x"⟩]

theorem input_kept_in_order_oneName :
    let c := oneName.start (.ofInputs [Input.tokens (nameOnLine.map .token) "<list>"])
    oneName.consumed 4 c = nameOnLine ∧ leavesOn (oneName.after 4 c).values = ["x"] ∧
      leavesOn (oneName.after 4 c).values = oneName.kept (oneName.consumed 4 c) := by
  have hr : Rules.empty.defineAll ParseTree.build [⟨1, "S", 1⟩] = .ok oneName.rules := rfl
  have h := input_kept_in_order oneName hr (Stream.tokens_list nameOnLine "<list>")
  exact ⟨by decide +kernel, by decide +kernel, (h.1 4 (by decide +kernel)).1⟩

end Trees

end Machine

end ShiftReduce
