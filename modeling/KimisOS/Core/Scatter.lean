import Mathlib

/-!
# Memory behind a list of addresses

`scatter` puts values at the addresses of a list, one after the other, and `gather`
takes them from there.  What an address holds in the end depends on the last place
at which it is listed.
-/

namespace KimisOS.Scatter

variable {Address Value : Type*}

def scatter [DecidableEq Address] (memory : Address → Value) :
    List Address → (ℕ → Value) → Address → Value
  | [], _ => memory
  | address :: rest, values =>
      scatter (Function.update memory address (values 0)) rest fun k => values (k + 1)

def gather (memory : Address → Value) (addresses : List Address) (default : Value) : ℕ → Value :=
  fun k => (addresses[k]?.map memory).getD default

section Scatter

variable [DecidableEq Address] {memory : Address → Value} {addresses : List Address}
  {values : ℕ → Value} {address : Address}

theorem scatter_outside (hout : address ∉ addresses) :
    scatter memory addresses values address = memory address := by
  induction addresses generalizing memory values with
  | nil => rfl
  | cons first rest ih =>
      rw [List.mem_cons, not_or] at hout
      rw [scatter, ih hout.2, Function.update_of_ne hout.1]

/-- An address that is listed once holds its own value. -/
theorem scatter_once {k : ℕ} (hk : addresses[k]? = some address)
    (honce : ∀ j, addresses[j]? = some address → j = k) :
    scatter memory addresses values address = values k := by
  induction addresses generalizing memory values k with
  | nil => cases hk
  | cons first rest ih =>
      cases k with
      | zero =>
          obtain rfl := Option.some.inj hk
          have hout : first ∉ rest := by
            intro hmem
            obtain ⟨j, hj⟩ := List.mem_iff_getElem?.mp hmem
            exact absurd (honce (j + 1) hj) (Nat.succ_ne_zero j)
          rw [scatter, scatter_outside hout, Function.update_self]
      | succ k =>
          rw [scatter]
          exact ih hk fun j hj => Nat.succ_injective (honce (j + 1) hj)

end Scatter

theorem gather_eq {memory : Address → Value} {addresses : List Address} {address : Address}
    {default : Value} {k : ℕ} (hk : addresses[k]? = some address) :
    gather memory addresses default k = memory address := by
  rw [gather, hk, Option.map_some, Option.getD_some]

end KimisOS.Scatter
