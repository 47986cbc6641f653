import Mathlib

/-!
# Walks along links

A walk starts at a node and goes on to the next one until it meets a node that
it does not go on at.  Looking up the next node may change the state.
-/

namespace KimisOS.Walk

variable {State Node : Type*}

/-- The visited nodes and the state behind them; `none` when the walk still goes
on after that many nodes. -/
def follow (next : State → Node → State × Node) (goesOn : Node → Bool) :
    ℕ → State → Node → Option (State × List Node)
  | 0, state, node => if goesOn node then none else some (state, [])
  | rounds + 1, state, node =>
      if goesOn node then
        (follow next goesOn rounds (next state node).1 (next state node).2).map
          fun walked => (walked.1, node :: walked.2)
      else some (state, [])

/-- The walk visits these nodes, and stops. -/
def Visits (next : State → Node → State × Node) (goesOn : Node → Bool) (state : State)
    (node : Node) (visited : List Node) : Prop :=
  ∃ rounds, (follow next goesOn rounds state node).map Prod.snd = some visited

/-- The walk along a fixed successor function. -/
def Linked (found : Node → Node) (goesOn : Node → Bool) : Node → List Node → Prop
  | node, [] => goesOn node = false
  | node, first :: rest =>
      first = node ∧ goesOn node = true ∧ Linked found goesOn (found node) rest

section Visits

variable {next : State → Node → State × Node} {goesOn : Node → Bool} {state : State}
  {node first : Node} {rest visited : List Node}

@[simp]
theorem visits_nil : Visits next goesOn state node [] ↔ goesOn node = false := by
  constructor
  · intro hvisits
    obtain ⟨rounds, hfollow⟩ := hvisits
    cases hgoes : goesOn node with
    | false => rfl
    | true =>
        cases rounds with
        | zero => simp [follow, hgoes] at hfollow
        | succ rounds => simp [follow, hgoes] at hfollow
  · intro hstop
    exact ⟨0, by simp [follow, hstop]⟩

theorem visits_cons : Visits next goesOn state node (first :: rest) ↔
    first = node ∧ goesOn node = true ∧
      Visits next goesOn (next state node).1 (next state node).2 rest := by
  constructor
  · intro hvisits
    obtain ⟨rounds, hfollow⟩ := hvisits
    cases hgoes : goesOn node with
    | false =>
        cases rounds with
        | zero => simp [follow, hgoes] at hfollow
        | succ rounds => simp [follow, hgoes] at hfollow
    | true =>
        cases rounds with
        | zero => simp [follow, hgoes] at hfollow
        | succ rounds =>
            rw [follow, if_pos hgoes, Option.map_map, Option.map_eq_some_iff] at hfollow
            obtain ⟨walked, hwalked, hcons⟩ := hfollow
            obtain ⟨rfl, rfl⟩ := List.cons.inj hcons
            exact ⟨rfl, rfl, rounds, by rw [hwalked]; rfl⟩
  · intro hvisits
    obtain ⟨rfl, hgoes, rounds, hfollow⟩ := hvisits
    obtain ⟨walked, hwalked, rfl⟩ := Option.map_eq_some_iff.mp hfollow
    refine ⟨rounds + 1, ?_⟩
    rw [follow, if_pos hgoes, hwalked]
    rfl

/-- A walk that finds the successors of `found` as long as it keeps `Inv` is a
walk along `found`. -/
theorem visits_iff_linked {Inv : ℕ → State → Prop} {found : Node → Node}
    (hnext : ∀ n state node, goesOn node = true → Inv (n + 1) state →
      (next state node).2 = found node ∧ Inv n (next state node).1)
    (hinv : Inv visited.length state) :
    Visits next goesOn state node visited ↔ Linked found goesOn node visited := by
  induction visited generalizing state node with
  | nil => exact visits_nil
  | cons first rest ih =>
      rw [visits_cons, Linked]
      refine and_congr_right fun _ => and_congr_right fun hgoes => ?_
      obtain ⟨hfound, hinv'⟩ := hnext _ state node hgoes hinv
      rw [hfound]
      exact ih hinv'

end Visits

section Linked

variable {found : Node → Node} {goesOn : Node → Bool} {node : Node}
  {visited visited' : List Node}

/-- A walk visits one sequence of nodes only. -/
theorem Linked.unique (hlinked : Linked found goesOn node visited)
    (hlinked' : Linked found goesOn node visited') : visited = visited' := by
  induction visited generalizing node visited' with
  | nil =>
      cases visited' with
      | nil => rfl
      | cons first rest =>
          have hstop : goesOn node = false := hlinked
          have hgoes : goesOn node = true := hlinked'.2.1
          rw [hstop] at hgoes
          cases hgoes
  | cons first rest ih =>
      cases visited' with
      | nil =>
          have hgoes : goesOn node = true := hlinked.2.1
          have hstop : goesOn node = false := hlinked'
          rw [hstop] at hgoes
          cases hgoes
      | cons first' rest' =>
          rw [Linked] at hlinked hlinked'
          rw [hlinked.1, hlinked'.1, ih hlinked.2.2 hlinked'.2.2]

/-- Nodes at which a walk goes on are what it visits when each leads to the next
one, and the last one to a node at which it stops. -/
theorem linked_iff {first : Node} {rest : List Node}
    (hgoes : ∀ node ∈ first :: rest, goesOn node = true) :
    Linked found goesOn first (first :: rest) ↔
      (∀ p node next, (first :: rest)[p]? = some node →
        (first :: rest)[p + 1]? = some next → found node = next) ∧
      ∀ last, (first :: rest).getLast? = some last → goesOn (found last) = false := by
  induction rest generalizing first with
  | nil =>
      rw [Linked, Linked]
      constructor
      · intro hlinked
        refine ⟨?_, ?_⟩
        · intro p node next _ hnext
          simp at hnext
        · intro last hlast
          obtain rfl : first = last := Option.some.inj hlast
          exact hlinked.2.2
      · intro hchain
        exact ⟨rfl, hgoes first List.mem_cons_self, hchain.2 first rfl⟩
  | cons second rest ih =>
      have hrest : ∀ node ∈ second :: rest, goesOn node = true := by
        intro node hmem
        exact hgoes node (List.mem_cons_of_mem _ hmem)
      rw [Linked]
      constructor
      · intro hlinked
        have hsecond : second = found first := hlinked.2.2.1
        have htail := hlinked.2.2
        rw [← hsecond] at htail
        obtain ⟨hlinks, hends⟩ := (ih hrest).mp htail
        refine ⟨?_, ?_⟩
        · intro p node next hp hnext
          cases p with
          | zero =>
              obtain rfl : first = node := Option.some.inj hp
              obtain rfl : second = next := Option.some.inj hnext
              exact hsecond.symm
          | succ p => exact hlinks p node next hp hnext
        · intro last hlast
          rw [List.getLast?_cons_cons] at hlast
          exact hends last hlast
      · intro hchain
        have hsecond : found first = second := hchain.1 0 first second rfl rfl
        refine ⟨rfl, hgoes first List.mem_cons_self, ?_⟩
        rw [hsecond]
        refine (ih hrest).mpr ⟨?_, ?_⟩
        · intro p node next hp hnext
          exact hchain.1 (p + 1) node next hp hnext
        · intro last hlast
          apply hchain.2 last
          rw [List.getLast?_cons_cons]
          exact hlast

end Linked

end KimisOS.Walk
