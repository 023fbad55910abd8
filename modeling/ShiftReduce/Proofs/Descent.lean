import ShiftReduce.Proofs.ParseTrees

/-! # Runs come to an end

A step that takes a token leaves fewer of them. A reduction takes none, so a run can only go on
forever by reducing. It cannot where the states are ranked and every reduction leads to a lower one.
-/

namespace ShiftReduce.Machine

variable {V : Type} {m : Machine V} {c d : Config V} {rank : Int → Nat}

/-- Every reduction goes to a state of a lower rank than that in which it is made. -/
def Descends (m : Machine V) (rank : Int → Nat) : Prop :=
  ∀ ⦃s e q id : Int⦄ ⦃kind lhs : String⦄ ⦃arity : Nat⦄ ⦃eval : List (Operand V) → Except Refusal V⦄,
    m.table.action? s kind = some (.reduce id) →
    m.rules.lookup id = some (.production lhs arity eval) →
    m.table.goto? e lhs = some q → rank q < rank s

def topRank (rank : Int → Nat) (c : Config V) : Nat := (c.states.peek.map rank).getD 0

theorem topRank_eq {s : Int} (hs : c.states.peek = some s) : topRank rank c = rank s := by
  simp [topRank, hs]

theorem Effect.descends (he : Effect m c .running d) (hd : m.Descends rank) {bound : Nat}
    (hb : ∀ s, rank s < bound) {ts : List (Token × Location)} (hts : c.stream.tokens = .ok ts) :
    ∃ rest, d.stream.tokens = .ok rest ∧
      bound * rest.length + topRank rank d < bound * ts.length + topRank rank c := by
  obtain ⟨rest, hrest, happ⟩ := he.taken_append rfl hts
  refine ⟨rest, hrest, ?_⟩
  have hlen := congrArg List.length happ
  rw [List.length_append, List.length_map, List.length_map] at hlen
  have hone : ∀ {r r' : Nat}, r < bound + r' → 1 + rest.length = ts.length →
      bound * rest.length + r < bound * ts.length + r' := by
    intro r r' hr hts
    rw [← hts, Nat.mul_add, Nat.mul_one]
    omega
  cases he with
  | skip hp hk =>
    rw [taken_skip hp hk] at hlen
    have hpos : 0 < bound := Nat.zero_lt_of_lt (hb 0)
    exact hone (Nat.lt_add_of_pos_left hpos) hlen
  | @shift _ _ _ q _ hp hk hs ha hn =>
    rw [taken_act hp hk hs ha] at hlen
    rw [topRank_eq (Stack.peek_push c.states q)]
    exact hone (Nat.lt_add_right _ (hb q)) hlen
  | @reduce _ _ _ q _ _ _ arity _ _ hp hk hs ha hr hg hn =>
    rw [taken_act hp hk hs ha, List.length_nil, Nat.zero_add] at hlen
    obtain ⟨eval, hl, -⟩ := hr.rule
    rw [hlen, topRank_eq hs, topRank_eq (Stack.peek_push (c.states.drop arity) q)]
    exact Nat.add_lt_add_left (hd ha hl hg) _

/-- A machine whose reductions descend stops on every stream that does not fail. -/
theorem Descends.ends (hd : m.Descends rank) (hr : m.rules.AllProductions) {bound : Nat}
    (hb : ∀ s, rank s < bound) {ts : List (Token × Location)} (hts : c.stream.tokens = .ok ts) :
    ∃ r d, m.Ends c r d := by
  -- A token that is taken outweighs any rank, and a reduction lowers the rank.
  induction hn : bound * ts.length + topRank rank c using Nat.strongRecOn generalizing c ts with
  | ind n ih =>
    have he := step_effect hr c
    rcases hs : m.step c with ⟨_ | _ | f, d⟩
    · rw [hs] at he
      obtain ⟨rest, hrest, hlt⟩ := he.descends hd hb hts
      obtain ⟨r, e, hend⟩ := ih _ (hn ▸ hlt) hrest rfl
      exact ⟨r, e, .of_running hs hend⟩
    · exact ⟨_, d, .of_halted hs⟩
    · exact ⟨_, d, .of_failed hs⟩

end ShiftReduce.Machine
