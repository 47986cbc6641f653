import Mathlib

/-!
# The first entries of an array

Tables of the kernel are arrays with a separate length.  `entries array n`
lists the first `n` of them; the lemmas say what appending, overwriting and
moving the last entry into a hole do to that list.
-/

namespace KimisOS.Entries

variable {A : Type*}

def entries (array : ℕ → A) (length : ℕ) : List A :=
  (List.range length).map array

@[simp]
theorem entries_zero (array : ℕ → A) : entries array 0 = [] := rfl

@[simp]
theorem length_entries (array : ℕ → A) (length : ℕ) :
    (entries array length).length = length := by
  simp [entries]

theorem entries_succ (array : ℕ → A) (length : ℕ) :
    entries array (length + 1) = entries array length ++ [array length] := by
  simp [entries, List.range_succ]

theorem mem_entries {array : ℕ → A} {length : ℕ} {value : A} :
    value ∈ entries array length ↔ ∃ i < length, array i = value := by
  simp [entries]

theorem entries_congr {array other : ℕ → A} {length : ℕ}
    (hsame : ∀ i < length, array i = other i) :
    entries array length = entries other length := by
  apply List.map_congr_left
  intro i hi
  exact hsame i (List.mem_range.mp hi)

@[simp]
theorem entries_update_self (array : ℕ → A) (length : ℕ) (value : A) :
    entries (Function.update array length value) (length + 1) =
      entries array length ++ [value] := by
  rw [entries_succ, Function.update_self]
  congr 1
  apply entries_congr
  intro i hi
  exact Function.update_of_ne (by omega) _ _

theorem entries_update (array : ℕ → A) (i length : ℕ) (value : A) :
    entries (Function.update array i value) length =
      (entries array length).set i value := by
  apply List.ext_getElem
  · simp
  · intro j hj _
    rw [List.getElem_set]
    simp only [entries, List.getElem_map, List.getElem_range]
    by_cases hij : i = j
    · subst hij
      simp
    · rw [if_neg hij, Function.update_of_ne (Ne.symm hij)]

theorem entries_map {B : Type*} (f : A → B) (array : ℕ → A) (length : ℕ) :
    (entries array length).map f = entries (fun i => f (array i)) length := by
  simp [entries, Function.comp_def]

/-- Dropping the entry at `i`, with the last entry moved into its place. -/
theorem entries_perm_moveLast (array : ℕ → A) {i last : ℕ} (hi : i < last) :
    (entries array (last + 1)).Perm
      (array i :: entries (Function.update array i (array last)) last) := by
  have hlen : i < (entries array last).length := by simpa using hi
  have hget : (entries array last)[i] = array i := by simp [entries]
  have herase : (entries array last).Perm
      (array i :: (entries array last).eraseIdx i) := by
    rw [← hget]
    exact (List.getElem_cons_eraseIdx_perm hlen).symm
  have hset : ((entries array last).set i (array last)).Perm
      (array last :: (entries array last).eraseIdx i) :=
    List.set_perm_cons_eraseIdx hlen _
  have hlast : (entries array last ++ [array last]).Perm
      (array i :: array last :: (entries array last).eraseIdx i) :=
    (List.perm_append_singleton _ _).trans
      ((herase.cons _).trans (List.Perm.swap _ _ _))
  rw [entries_succ, entries_update]
  exact hlast.trans (hset.symm.cons _)

end KimisOS.Entries
