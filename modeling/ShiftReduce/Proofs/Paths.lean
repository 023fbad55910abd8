import ShiftReduce.Proofs.Runs

/-! # The states are a path of the table

The value stack spells a path through the table, and the state stack holds the states on it. So
there is always one state more than there are values.
-/

namespace ShiftReduce

namespace Stack

variable {α : Type}

theorem toList_drop (s : Stack α) (n : Nat) : (s.drop n).toList = s.toList.take (s.size - n) := by
  rcases Nat.le_total n s.items.length with hn | hn
  · rw [toList, toList, drop, size, List.take_reverse, Nat.sub_sub_self hn]
  · simp [toList, drop, size, List.drop_eq_nil_of_le hn, Nat.sub_eq_zero_of_le hn]

@[simp]
theorem getLast?_toList (s : Stack α) : s.toList.getLast? = s.peek := by
  simp [toList, peek]

end Stack

namespace Table

variable {V : Type}

/-- A symbol leads from one state to another: a token by a shift, a nonterminal by a goto. -/
def Link (t : Table) (p : Int) (x : Symbol V) (q : Int) : Prop :=
  match x with
  | .terminal token => t.action? p token.kind = some (.shift q)
  | .nonterminal name _ => t.goto? p name = some q

/-- The states of a path that starts at the start state and goes along the symbols. -/
structure IsPath (t : Table) (states : List Int) (symbols : List (Symbol V)) : Prop where
  length : states.length = symbols.length + 1
  start : states[0]? = some t.start
  link : ∀ i x, symbols[i]? = some x →
    ∃ p q, states[i]? = some p ∧ states[i + 1]? = some q ∧ t.Link p x q

variable {t : Table} {states : List Int} {symbols : List (Symbol V)}

theorem IsPath.push (h : t.IsPath states symbols) {p q : Int} {x : Symbol V}
    (hp : states.getLast? = some p) (hx : t.Link p x q) :
    t.IsPath (states ++ [q]) (symbols ++ [x]) := by
  have hlen := h.length
  refine ⟨by simp [hlen], ?_, ?_⟩
  · rw [List.getElem?_append_left (by omega)]
    exact h.start
  · intro i y hy
    rcases Nat.lt_trichotomy i symbols.length with hi | hi | hi
    · rw [List.getElem?_append_left hi] at hy
      obtain ⟨p', q', hp', hq', hl⟩ := h.link i y hy
      refine ⟨p', q', ?_, ?_, hl⟩
      · rwa [List.getElem?_append_left (by omega)]
      · rwa [List.getElem?_append_left (by omega)]
    · subst hi
      simp only [List.getElem?_concat_length, Option.some.injEq] at hy
      subst hy
      refine ⟨p, q, ?_, ?_, hx⟩
      · rw [List.getElem?_append_left (by omega), ← hp, List.getLast?_eq_getElem?, hlen]
        rfl
      · rw [← hlen]
        exact List.getElem?_concat_length
    · rw [List.getElem?_eq_none (by simp; omega)] at hy
      simp at hy

theorem IsPath.take (h : t.IsPath states symbols) {n : Nat} (hn : n ≤ symbols.length) :
    t.IsPath (states.take (n + 1)) (symbols.take n) := by
  have hlen := h.length
  refine ⟨by simp; omega, ?_, ?_⟩
  · rw [List.getElem?_take_of_lt (by omega)]
    exact h.start
  · intro i x hx
    have hi : i < n := by
      have := (List.getElem?_eq_some_iff.mp hx).1
      simp only [List.length_take] at this
      omega
    rw [List.getElem?_take_of_lt hi] at hx
    rw [List.getElem?_take_of_lt (by omega), List.getElem?_take_of_lt (by omega)]
    exact h.link i x hx

end Table

def Verdict.lacksGoto : Verdict → Bool
  | .failed (.config (.noGoto ..)) => true
  | _ => false

namespace Machine

variable {V : Type} {m : Machine V}

def OnPath (m : Machine V) (c : Config V) : Prop := m.table.IsPath c.states.toList c.values.toList

theorem onPath_start (m : Machine V) (s : Stream) : m.OnPath (m.start s) := by
  refine ⟨rfl, rfl, ?_⟩
  intro i x hx
  simp [start, Stack.ofList, Stack.toList] at hx

theorem OnPath.size {c : Config V} (hc : m.OnPath c) : c.states.size = c.values.size + 1 := by
  simpa using hc.length

theorem OnPath.drop {c : Config V} (hc : m.OnPath c) {n : Nat} (hn : n ≤ c.values.size) :
    m.table.IsPath (c.states.drop n).toList (c.values.drop n).toList := by
  have hback := hc.take (Nat.sub_le c.values.toList.length n)
  rw [Stack.toList_drop, Stack.toList_drop, hc.size, Nat.sub_add_comm hn]
  simpa using hback

/-- A step stays on the path, unless it takes a reduction that has nowhere to go. -/
theorem Effect.onPath {c d : Config V} {v : Verdict} (he : Effect m c v d)
    (hv : v.lacksGoto = false) (hc : m.OnPath c) : m.OnPath d := by
  cases he with
  | shift hp hk hs ha hn =>
    simp only [OnPath, Stack.toList_push]
    exact hc.push (by simpa using hs) ha
  | reduce hp hk hs ha hr hg hn =>
    simp only [OnPath, Stack.toList_push]
    exact (hc.drop hr.values).push (by simpa using hr.states) hg
  | lost hp hk hs ha hr hg hn => simp [Verdict.lacksGoto] at hv
  | broken hp => exact hc
  | skip hp hk => exact hc
  | accept hp hk hs ha hn => exact hc
  | reject hp hk ha he hn => exact hc
  | stuck hp hk hs ha ho hn => exact hc

/-- After any number of steps the states are a path of the table that the values spell, also after
steps that report an error, accept, or fail for any other reason than a missing goto. -/
theorem states_spell_path (m : Machine V) {eval : Int → List (Operand V) → Except Refusal V}
    {ss : List Signature} (hr : Rules.empty.defineAll eval ss = .ok m.rules) (s : Stream) (n : Nat)
    (hv : ∀ k < n, (m.verdictAt k (m.start s)).lacksGoto = false) :
    m.table.IsPath (m.after n (m.start s)).states.toList (m.after n (m.start s)).values.toList := by
  have hprod := Rules.allProductions_defineAll hr
  have hstep : ∀ c, m.OnPath c → (m.step c).1.lacksGoto = false → m.OnPath (m.step c).2 :=
    fun c hc hv => (step_effect hprod c).onPath hv hc
  exact after_invariant (P := fun v => v.lacksGoto = false) hstep (onPath_start m s) hv

/-- A machine for names in front of an end, where the table has nothing to say about the end. -/
def unended : Machine String where
  table :=
    { actions := [((0, "ident"), .shift 1), ((1, "eof"), .reduce 1)]
      gotos := [((0, "S"), 2)] }
  rules := ⟨[(1, .production "S" 1 fun _ => .ok "name")]⟩

theorem states_spell_path_unended :
    let c := unended.start (.ofInputs [Input.tokens [.token ⟨"ident", "x"⟩] "<list>"])
    unended.verdictAt 2 c = .halted ∧ (unended.after 3 c).states.toList = [0, 2] ∧
      unended.table.IsPath (unended.after 3 c).states.toList (unended.after 3 c).values.toList := by
  have hr : Rules.empty.defineAll (fun _ _ => .ok "name") [⟨1, "S", 1⟩] = .ok unended.rules := rfl
  exact ⟨by decide +kernel, by decide +kernel, states_spell_path unended hr _ 3 (by decide +kernel)⟩

end Machine

end ShiftReduce
