import ShiftReduce.Symbol

/-! # Grammars

A grammar is a list of productions with a start symbol. What its symbols can stand for is said
without a table: `Derives` reads the productions from left to right.
-/

namespace ShiftReduce

/-- A symbol without its value. -/
inductive Mark where
  | terminal (kind : String)
  | nonterminal (name : String)
deriving DecidableEq, Repr

namespace Symbol

variable {V : Type}

def mark : Symbol V → Mark
  | .terminal t => .terminal t.kind
  | .nonterminal name _ => .nonterminal name

theorem exists_of_mark_terminal {x : Symbol V} {kind : String} (h : x.mark = .terminal kind) :
    ∃ t, x = .terminal t ∧ t.kind = kind := by
  cases x with
  | terminal t => exact ⟨t, rfl, Mark.terminal.inj h⟩
  | nonterminal name v => cases h

theorem exists_of_mark_nonterminal {x : Symbol V} {name : String}
    (h : x.mark = .nonterminal name) : ∃ v, x = .nonterminal name v := by
  cases x with
  | terminal t => cases h
  | nonterminal n v =>
    obtain rfl := Mark.nonterminal.inj h
    exact ⟨v, rfl⟩

end Symbol

structure Production where
  id : Int
  lhs : String
  rhs : List Mark
deriving DecidableEq, Repr

structure ContextFree where
  start : String
  productions : List Production

namespace ContextFree

/-- The kinds of tokens that a row of symbols can stand for. -/
inductive Derives (G : ContextFree) : List Mark → List String → Prop
  | nil : Derives G [] []
  | terminal {k : String} {xs : List Mark} {w : List String} (h : Derives G xs w) :
      Derives G (.terminal k :: xs) (k :: w)
  | nonterminal {p : Production} {xs : List Mark} {u w : List String} (hp : p ∈ G.productions)
      (h : Derives G p.rhs u) (h' : Derives G xs w) :
      Derives G (.nonterminal p.lhs :: xs) (u ++ w)

def Sentence (G : ContextFree) (w : List String) : Prop := G.Derives [.nonterminal G.start] w

/-- What a sentence and the end behind it can start with. -/
def Viable (G : ContextFree) (p : List String) : Prop :=
  ∃ w, G.Sentence w ∧ p <+: w ++ ["eof"]

variable {G : ContextFree} {xs ys : List Mark} {u w : List String}

theorem Viable.of_sentence (h : G.Sentence w) (hp : u <+: w) : G.Viable u :=
  ⟨w, h, hp.trans (List.prefix_append w ["eof"])⟩

namespace Derives

theorem append (h : G.Derives xs u) (h' : G.Derives ys w) : G.Derives (xs ++ ys) (u ++ w) := by
  induction h with
  | nil => exact h'
  | terminal _ ih => exact .terminal ih
  | nonterminal hp hr _ _ ih =>
    rw [List.append_assoc]
    exact .nonterminal hp hr ih

theorem of_append (h : G.Derives (xs ++ ys) w) :
    ∃ u v, w = u ++ v ∧ G.Derives xs u ∧ G.Derives ys v := by
  induction xs generalizing w with
  | nil => exact ⟨[], w, rfl, .nil, h⟩
  | cons x xs ih =>
    cases h with
    | terminal h =>
      obtain ⟨u, v, rfl, hu, hv⟩ := ih h
      exact ⟨_, v, rfl, .terminal hu, hv⟩
    | nonterminal hp hr h =>
      obtain ⟨u, v, rfl, hu, hv⟩ := ih h
      exact ⟨_, v, (List.append_assoc _ _ _).symm, .nonterminal hp hr hu, hv⟩

theorem token (k : String) : G.Derives [.terminal k] [k] := .terminal .nil

theorem production {p : Production} (hp : p ∈ G.productions) (h : G.Derives p.rhs w) :
    G.Derives [.nonterminal p.lhs] w := by
  have hd := Derives.nonterminal hp h .nil
  rwa [List.append_nil] at hd

theorem not_mem {k : String} (hG : ∀ p ∈ G.productions, Mark.terminal k ∉ p.rhs)
    (h : G.Derives xs w) (hxs : Mark.terminal k ∉ xs) : k ∉ w := by
  induction h with
  | nil => simp
  | terminal _ ih =>
    simp only [List.mem_cons, not_or] at hxs
    simp only [List.mem_cons, not_or]
    exact ⟨fun hk => hxs.1 (hk ▸ rfl), ih hxs.2⟩
  | nonterminal hp _ _ ih ih' =>
    simp only [List.mem_cons, not_or] at hxs
    simp only [List.mem_append, not_or]
    exact ⟨ih (hG _ hp), ih' hxs.2⟩

end Derives

@[simp]
theorem derives_nil_iff : G.Derives [] w ↔ w = [] := by
  constructor
  · intro h
    cases h
    rfl
  · rintro rfl
    exact .nil

theorem derives_cons_iff {x : Mark} :
    G.Derives (x :: xs) w ↔ ∃ u v, w = u ++ v ∧ G.Derives [x] u ∧ G.Derives xs v := by
  constructor
  · intro h
    have h : G.Derives ([x] ++ xs) w := h
    exact h.of_append
  · rintro ⟨u, v, rfl, hu, hv⟩
    exact hu.append hv

theorem derives_terminal_iff {k : String} :
    G.Derives (.terminal k :: xs) w ↔ ∃ v, w = k :: v ∧ G.Derives xs v := by
  constructor
  · intro h
    cases h with
    | terminal h => exact ⟨_, rfl, h⟩
  · rintro ⟨v, rfl, h⟩
    exact .terminal h

/-- The right sides that a nonterminal has. -/
def alternatives (G : ContextFree) (name : String) : List (List Mark) :=
  (G.productions.filter (·.lhs == name)).map Production.rhs

theorem derives_nonterminal_iff {name : String} :
    G.Derives [.nonterminal name] w ↔ ∃ rhs ∈ G.alternatives name, G.Derives rhs w := by
  simp only [alternatives, List.mem_map, List.mem_filter, beq_iff_eq]
  constructor
  · intro h
    cases h with
    | nonterminal hp hr h =>
      cases h
      exact ⟨_, ⟨_, ⟨hp, rfl⟩, rfl⟩, by rwa [List.append_nil]⟩
  · rintro ⟨_, ⟨p, ⟨hp, rfl⟩, rfl⟩, h⟩
    exact .production hp h

end ContextFree

end ShiftReduce
