import KimisOS.Core.ByteStore

/-!
# Disjoint windows of several memories

Ranges that do not meet are stores of their own: a store in one of them is not
seen through another.
-/

namespace KimisOS.Windows

open KimisOS.ByteStore

/-- Ranges of bytes that do not meet, each in one of the memories. -/
structure Layout (Index Memory : Type*) where
  memory : Index → Memory
  start : Index → ℕ
  size : Index → ℕ
  disjoint : ∀ i j, i ≠ j → memory i = memory j →
    start i + size i ≤ start j ∨ start j + size j ≤ start i ∨ size i = 0 ∨ size j = 0

section Views

variable {Index Memory : Type*} (layout : Layout Index Memory)

/-- What the memories hold in each window. -/
def Layout.Views (mems : Memory → ℕ → UInt8) (stores : Index → ℕ → UInt8) : Prop :=
  ∀ i k, k < layout.size i → mems (layout.memory i) (layout.start i + k) = stores i k

variable {layout} {mems : Memory → ℕ → UInt8} {stores : Index → ℕ → UInt8}
  {i : Index} {place length : ℕ}

/-- A store inside one window is a store of that window only. -/
theorem Layout.Views.store [DecidableEq Index] [DecidableEq Memory]
    (hviews : layout.Views mems stores) (hinside : place + length ≤ layout.size i)
    (bytes : ℕ → UInt8) :
    layout.Views
      (Function.update mems (layout.memory i)
        (store (mems (layout.memory i)) (layout.start i + place) bytes length))
      (Function.update stores i (store (stores i) place bytes length)) := by
  intro j k hk
  by_cases hsame : j = i
  · subst hsame
    rw [Function.update_self, Function.update_self, ByteStore.store, ByteStore.store]
    by_cases hrange : place ≤ k ∧ k < place + length
    · rw [if_pos (by omega), if_pos hrange]
      congr 1
      omega
    · rw [if_neg (by omega), if_neg hrange]
      exact hviews j k hk
  · rw [Function.update_of_ne hsame]
    by_cases hmemory : layout.memory j = layout.memory i
    · have hapart := layout.disjoint j i hsame hmemory
      rw [hmemory, Function.update_self]
      rw [store_outside (by omega), ← hmemory]
      exact hviews j k hk
    · rw [Function.update_of_ne hmemory]
      exact hviews j k hk

/-- What lies in no window stays. -/
theorem Layout.store_outside_windows [DecidableEq Memory]
    (hinside : place + length ≤ layout.size i) (bytes : ℕ → UInt8) {memory : Memory} {a : ℕ}
    (ha : layout.memory i = memory → a < layout.start i ∨
      layout.start i + layout.size i ≤ a) :
    Function.update mems (layout.memory i)
      (ByteStore.store (mems (layout.memory i)) (layout.start i + place) bytes length)
      memory a = mems memory a := by
  by_cases hmemory : memory = layout.memory i
  · have hout := ha hmemory.symm
    rw [hmemory, Function.update_self, store_outside (by omega)]
  · rw [Function.update_of_ne hmemory]

end Views

end KimisOS.Windows
