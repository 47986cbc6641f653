import Mathlib

/-!
# Scanning by an index

The loops of a hand-written scanner, over a list that may be read at its own indices
only and buffers that may be written at their own only.  `none` is an access outside
of them.
-/

namespace KimisOS.Scan

variable {α : Type*}

/-- `run` is what a scan for an element without `more` passes, and such an element
heads `rest`. -/
structure Stops (more : α → Bool) (text run rest : List α) : Prop where
  split : text = run ++ rest
  passed : ∀ c ∈ run, more c
  stop : ∃ c tail, rest = c :: tail ∧ more c = false

/-- `while(more(list[i])) i++;` -/
def skipWhile (more : α → Bool) (list : List α) (i : ℕ) : Option ℕ :=
  if hlt : i < list.length then
    if more list[i] then skipWhile more list (i + 1) else some i
  else none
termination_by list.length - i

/-- `while(more(list[i])) buffer[j++] = list[i++];`, with room for `room` elements in
the buffer. -/
def copyWhile (more : α → Bool) (list : List α) : ℕ → ℕ → Option (List α × ℕ)
  | 0, i =>
      match list[i]? with
      | none => none
      | some c => if more c then none else some ([], i)
  | room + 1, i =>
      match list[i]? with
      | none => none
      | some c =>
          if more c then (copyWhile more list room (i + 1)).map (Prod.map (c :: ·) id)
          else some ([], i)

/-- `while(j < limit && more(list[i])) buffer[j++] = list[i++];` -/
def copyUpTo (more : α → Bool) (list : List α) : ℕ → ℕ → Option (List α × ℕ)
  | 0, i => some ([], i)
  | left + 1, i =>
      match list[i]? with
      | none => none
      | some c =>
          if more c then (copyUpTo more list left (i + 1)).map (Prod.map (c :: ·) id)
          else some ([], i)

/-- `while(more(list[i]) && j < limit) buffer[j++] = list[i++];` -/
def copyBelow (more : α → Bool) (list : List α) : ℕ → ℕ → Option (List α × ℕ)
  | 0, i =>
      match list[i]? with
      | none => none
      | some _ => some ([], i)
  | left + 1, i =>
      match list[i]? with
      | none => none
      | some c =>
          if more c then (copyBelow more list left (i + 1)).map (Prod.map (c :: ·) id)
          else some ([], i)

variable {more : α → Bool} {list text run rest : List α} {i k : ℕ}

/-! ## Where a scan stops -/

theorem not_stops_nil : ¬ Stops more [] run rest := by
  intro hstops
  obtain ⟨c, tail, hrest, _⟩ := hstops.stop
  have hsplit := hstops.split
  simp [hrest] at hsplit

theorem stops_cons {c : α} :
    Stops more (c :: text) run rest ↔
      more c = false ∧ run = [] ∧ rest = c :: text ∨
        more c = true ∧ ∃ passed, run = c :: passed ∧ Stops more text passed rest := by
  constructor
  · rintro ⟨hsplit, hpassed, hstop⟩
    cases run with
    | nil =>
        obtain ⟨d, tail, hrest, hd⟩ := hstop
        obtain ⟨rfl, rfl⟩ : c = d ∧ text = tail := by simpa [hrest] using hsplit
        exact Or.inl ⟨hd, rfl, hrest⟩
    | cons d passed =>
        obtain ⟨rfl, htext⟩ : c = d ∧ text = passed ++ rest := by simpa using hsplit
        refine Or.inr ⟨hpassed c (by simp), passed, rfl, htext, ?_, hstop⟩
        intro e he
        exact hpassed e (List.mem_cons_of_mem _ he)
  · rintro (⟨hc, rfl, rfl⟩ | ⟨hc, passed, rfl, hstops⟩)
    · exact ⟨rfl, by simp, c, text, rfl, hc⟩
    · refine ⟨by rw [hstops.split, List.cons_append], ?_, hstops.stop⟩
      intro e he
      rcases List.mem_cons.mp he with rfl | he
      · exact hc
      · exact hstops.passed e he

theorem Stops.ne_nil (hstops : Stops more text run rest) : rest ≠ [] := by
  obtain ⟨c, tail, rfl, _⟩ := hstops.stop
  exact List.cons_ne_nil c tail

theorem Stops.length_le (hstops : Stops more text run rest) : rest.length ≤ text.length := by
  rw [hstops.split, List.length_append]
  exact Nat.le_add_left _ _

theorem Stops.drop (hstops : Stops more (list.drop i) run rest) :
    list.drop (i + run.length) = rest := by
  rw [← List.drop_drop, hstops.split, List.drop_left]

/-- A scan stops at one place. -/
theorem Stops.unique {run' rest' : List α} (hstops : Stops more text run rest)
    (hstops' : Stops more text run' rest') : run = run' ∧ rest = rest' := by
  induction text generalizing run run' with
  | nil => exact absurd hstops not_stops_nil
  | cons c text ih =>
      rcases stops_cons.mp hstops with ⟨hc, rfl, rfl⟩ | ⟨hc, passed, rfl, hrun⟩ <;>
        rcases stops_cons.mp hstops' with ⟨hc', rfl, rfl⟩ | ⟨hc', passed', rfl, hrun'⟩
      · exact ⟨rfl, rfl⟩
      · rw [hc] at hc'
        cases hc'
      · rw [hc] at hc'
        cases hc'
      · obtain ⟨rfl, rfl⟩ := ih hrun hrun'
        exact ⟨rfl, rfl⟩

/-! ## The loops -/

theorem drop_of_getElem? {c : α} (hget : list[i]? = some c) :
    list.drop i = c :: list.drop (i + 1) := by
  obtain ⟨hlt, hc⟩ := List.getElem?_eq_some_iff.mp hget
  rw [List.drop_eq_getElem_cons hlt, hc]

theorem getElem?_of_drop {c : α} {behind : List α} (hdrop : list.drop i = c :: behind) :
    list[i]? = some c ∧ list.drop (i + 1) = behind := by
  constructor
  · rw [← Nat.add_zero i, ← List.getElem?_drop, hdrop, List.getElem?_cons_zero]
  · rw [← List.drop_drop, hdrop, List.drop_one, List.tail_cons]

theorem not_stops_of_end (hnone : list[i]? = none) : ¬ Stops more (list.drop i) run rest := by
  rw [List.drop_eq_nil_of_le (List.getElem?_eq_none_iff.mp hnone)]
  exact not_stops_nil

theorem stops_of_more {c : α} (hget : list[i]? = some c) (hmore : more c = true) :
    Stops more (list.drop i) run rest ↔
      ∃ passed, run = c :: passed ∧ Stops more (list.drop (i + 1)) passed rest := by
  rw [drop_of_getElem? hget, stops_cons]
  simp [hmore]

theorem stops_of_not_more {c : α} (hget : list[i]? = some c) (hmore : more c = false) :
    Stops more (list.drop i) run rest ↔ run = [] ∧ rest = list.drop i := by
  rw [drop_of_getElem? hget, stops_cons]
  simp [hmore]

theorem skipWhile_eq_some_iff :
    skipWhile more list i = some k ↔
      ∃ run, k = i + run.length ∧ Stops more (list.drop i) run (list.drop k) := by
  fun_induction skipWhile more list i with
  | case1 i hlt hmore ih =>
      have hget : list[i]? = some list[i] := List.getElem?_eq_getElem hlt
      simp only [ih, stops_of_more hget hmore]
      constructor
      · rintro ⟨run, hk, hstops⟩
        exact ⟨list[i] :: run, by rw [List.length_cons, hk]; omega, run, rfl, hstops⟩
      · rintro ⟨run, hk, passed, rfl, hstops⟩
        exact ⟨passed, by rw [List.length_cons] at hk; omega, hstops⟩
  | case2 i hlt hmore =>
      have hget : list[i]? = some list[i] := List.getElem?_eq_getElem hlt
      simp only [stops_of_not_more hget (by simpa using hmore), Option.some.injEq]
      constructor
      · rintro rfl
        exact ⟨[], rfl, rfl, rfl⟩
      · rintro ⟨run, hk, rfl, _⟩
        exact hk.symm
  | case3 i hge =>
      have hnone : list[i]? = none := List.getElem?_eq_none (not_lt.mp hge)
      constructor
      · intro hsome
        cases hsome
      · rintro ⟨run, _, hstops⟩
        exact absurd hstops (not_stops_of_end hnone)

/-- One more element in front of what was copied. -/
theorem map_cons_eq_some {copied : Option (List α × ℕ)} {c : α} :
    copied.map (Prod.map (c :: ·) id) = some (run, k) ↔
      ∃ passed, run = c :: passed ∧ copied = some (passed, k) := by
  constructor
  · intro hmap
    obtain ⟨⟨passed, k'⟩, hcopied, hpair⟩ := Option.map_eq_some_iff.mp hmap
    obtain ⟨rfl, rfl⟩ := Prod.mk.inj hpair
    exact ⟨passed, rfl, hcopied⟩
  · rintro ⟨passed, rfl, rfl⟩
    rfl

/-- What a copy leaves that stops at once. -/
theorem stopped_iff {room : ℕ} :
    some (([] : List α), i) = some (run, k) ↔
      run.length ≤ room ∧ k = i + run.length ∧ run = [] ∧ list.drop k = list.drop i := by
  constructor
  · intro hsome
    obtain ⟨rfl, rfl⟩ := Prod.mk.inj (Option.some.inj hsome)
    exact ⟨Nat.zero_le _, rfl, rfl, rfl⟩
  · rintro ⟨_, hk, rfl, _⟩
    rw [hk, List.length_nil, Nat.add_zero]

theorem copyWhile_eq_some_iff {room : ℕ} :
    copyWhile more list room i = some (run, k) ↔
      run.length ≤ room ∧ k = i + run.length ∧
        Stops more (list.drop i) run (list.drop k) := by
  induction room generalizing i run with
  | zero =>
      cases hget : list[i]? with
      | none => simp [copyWhile, hget, not_stops_of_end hget]
      | some c =>
          cases hmore : more c with
          | true =>
              simp only [copyWhile, hget, hmore, if_true, stops_of_more hget hmore]
              constructor
              · intro hfull
                cases hfull
              · rintro ⟨hroom, _, passed, rfl, _⟩
                cases hroom
          | false =>
              simp only [copyWhile, hget, hmore, Bool.false_eq_true, if_false]
              rw [stops_of_not_more hget hmore]
              exact stopped_iff
  | succ room ih =>
      cases hget : list[i]? with
      | none => simp [copyWhile, hget, not_stops_of_end hget]
      | some c =>
          cases hmore : more c with
          | true =>
              simp only [copyWhile, hget, hmore, if_true]
              rw [stops_of_more hget hmore, map_cons_eq_some]
              constructor
              · rintro ⟨passed, rfl, hcopied⟩
                obtain ⟨hroom, hk, hstops⟩ := ih.mp hcopied
                refine ⟨Nat.succ_le_succ hroom, ?_, passed, rfl, hstops⟩
                rw [List.length_cons, hk]
                omega
              · rintro ⟨hroom, hk, passed, rfl, hstops⟩
                rw [List.length_cons] at hroom hk
                exact ⟨passed, rfl, ih.mpr ⟨by omega, by omega, hstops⟩⟩
          | false =>
              simp only [copyWhile, hget, hmore, Bool.false_eq_true, if_false]
              rw [stops_of_not_more hget hmore]
              exact stopped_iff

/-- The limit is not reached: the copy stopped in the list. -/
theorem copyUpTo_eq_some_iff {left : ℕ} (hroom : run.length < left) :
    copyUpTo more list left i = some (run, k) ↔
      k = i + run.length ∧ Stops more (list.drop i) run (list.drop k) := by
  induction left generalizing i run with
  | zero => cases hroom
  | succ left ih =>
      cases hget : list[i]? with
      | none => simp [copyUpTo, hget, not_stops_of_end hget]
      | some c =>
          cases hmore : more c with
          | true =>
              simp only [copyUpTo, hget, hmore, if_true]
              rw [stops_of_more hget hmore, map_cons_eq_some]
              constructor
              · rintro ⟨passed, rfl, hcopied⟩
                obtain ⟨hk, hstops⟩ := (ih (Nat.lt_of_succ_lt_succ hroom)).mp hcopied
                refine ⟨?_, passed, rfl, hstops⟩
                rw [List.length_cons, hk]
                omega
              · rintro ⟨hk, passed, rfl, hstops⟩
                rw [List.length_cons] at hk
                refine ⟨passed, rfl, ?_⟩
                exact (ih (Nat.lt_of_succ_lt_succ hroom)).mpr ⟨by omega, hstops⟩
          | false =>
              simp only [copyUpTo, hget, hmore, Bool.false_eq_true, if_false]
              rw [stops_of_not_more hget hmore, @stopped_iff _ list run i k (left + 1)]
              exact and_iff_right hroom.le

/-- `run` is passed by a scan that has not reached the end. -/
structure Passes (more : α → Bool) (text run rest : List α) : Prop where
  split : text = run ++ rest
  passed : ∀ c ∈ run, more c
  inside : rest ≠ []

theorem Passes.length_le (hpasses : Passes more text run rest) :
    rest.length ≤ text.length := by
  rw [hpasses.split, List.length_append]
  exact Nat.le_add_left _ _

theorem not_passes_nil : ¬ Passes more [] run rest := by
  rintro ⟨hsplit, _, hinside⟩
  exact hinside (List.append_eq_nil_iff.mp hsplit.symm).2

theorem passes_cons {c d : α} {passed : List α} :
    Passes more (c :: text) (d :: passed) rest ↔
      c = d ∧ more c = true ∧ Passes more text passed rest := by
  constructor
  · rintro ⟨hsplit, hpassed, hinside⟩
    obtain ⟨rfl, htext⟩ : c = d ∧ text = passed ++ rest := by simpa using hsplit
    refine ⟨rfl, hpassed c (by simp), htext, ?_, hinside⟩
    intro e he
    exact hpassed e (List.mem_cons_of_mem _ he)
  · rintro ⟨rfl, hmore, hsplit, hpassed, hinside⟩
    refine ⟨by rw [hsplit, List.cons_append], ?_, hinside⟩
    intro e he
    rcases List.mem_cons.mp he with rfl | he
    · exact hmore
    · exact hpassed e he

/-- The copy stopped in the list, or passed elements of it up to the limit. -/
theorem copyBelow_eq_some_iff {left : ℕ} :
    copyBelow more list left i = some (run, k) ↔
      k = i + run.length ∧
        (run.length < left ∧ Stops more (list.drop i) run (list.drop k) ∨
          run.length = left ∧ Passes more (list.drop i) run (list.drop k)) := by
  induction left generalizing i run with
  | zero =>
      cases hget : list[i]? with
      | none =>
          have hdrop := List.drop_eq_nil_of_le (List.getElem?_eq_none_iff.mp hget)
          simp [copyBelow, hget, hdrop, not_passes_nil]
      | some c =>
          have hdrop := drop_of_getElem? hget
          simp only [copyBelow, hget]
          constructor
          · intro hsome
            obtain ⟨rfl, rfl⟩ := Prod.mk.inj (Option.some.inj hsome)
            exact ⟨rfl, Or.inr ⟨rfl, rfl, by simp, by rw [hdrop]; exact List.cons_ne_nil _ _⟩⟩
          · rintro ⟨hk, ⟨hlt, _⟩ | ⟨hzero, _⟩⟩
            · cases hlt
            · rw [List.length_eq_zero_iff] at hzero
              rw [hk, hzero, List.length_nil, Nat.add_zero]
  | succ left ih =>
      cases hget : list[i]? with
      | none =>
          have hdrop := List.drop_eq_nil_of_le (List.getElem?_eq_none_iff.mp hget)
          simp [copyBelow, hget, hdrop, not_passes_nil, not_stops_nil]
      | some c =>
          cases hmore : more c with
          | true =>
              simp only [copyBelow, hget, hmore, if_true]
              rw [stops_of_more hget hmore, map_cons_eq_some, drop_of_getElem? hget]
              constructor
              · rintro ⟨passed, rfl, hcopied⟩
                obtain ⟨hk, hends⟩ := ih.mp hcopied
                refine ⟨by rw [List.length_cons, hk]; omega, ?_⟩
                rcases hends with ⟨hlt, hstops⟩ | ⟨hlimit, hpasses⟩
                · exact Or.inl ⟨Nat.succ_lt_succ hlt, passed, rfl, hstops⟩
                · exact Or.inr ⟨by rw [List.length_cons, hlimit],
                    passes_cons.mpr ⟨rfl, hmore, hpasses⟩⟩
              · rintro ⟨hk, ⟨hlt, passed, rfl, hstops⟩ | ⟨hlimit, hpasses⟩⟩
                · rw [List.length_cons] at hk hlt
                  exact ⟨passed, rfl, ih.mpr ⟨by omega, Or.inl ⟨by omega, hstops⟩⟩⟩
                · cases run with
                  | nil => cases hlimit
                  | cons d passed =>
                      obtain ⟨rfl, _, hpasses⟩ := passes_cons.mp hpasses
                      rw [List.length_cons] at hk hlimit
                      exact ⟨passed, rfl, ih.mpr ⟨by omega, Or.inr ⟨by omega, hpasses⟩⟩⟩
          | false =>
              simp only [copyBelow, hget, hmore, Bool.false_eq_true, if_false]
              rw [stops_of_not_more hget hmore, drop_of_getElem? hget,
                @stopped_iff _ list run i k left, drop_of_getElem? hget]
              constructor
              · rintro ⟨_, hk, rfl, hdrop⟩
                exact ⟨hk, Or.inl ⟨Nat.succ_pos left, rfl, hdrop⟩⟩
              · rintro ⟨hk, ⟨_, rfl, hdrop⟩ | ⟨hlimit, hpasses⟩⟩
                · exact ⟨Nat.zero_le _, hk, rfl, hdrop⟩
                · cases run with
                  | nil => cases hlimit
                  | cons d passed =>
                      obtain ⟨_, htrue, _⟩ := passes_cons.mp hpasses
                      rw [hmore] at htrue
                      cases htrue

end KimisOS.Scan
