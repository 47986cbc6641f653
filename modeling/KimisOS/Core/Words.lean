import KimisOS.Core.ByteStore

/-!
# Words and stacks in memory

A 32-bit word takes four bytes of a store.  A stack grows down: the word that
is pushed last has the lowest address, so a list of words that are pushed one
after the other is read back in reverse.
-/

namespace KimisOS.Words

open KimisOS.ByteStore

def wordAt (mem : ℕ → UInt8) (address : ℕ) : UInt32 := UInt32.ofNat (readU32 mem address)

def storeWord (mem : ℕ → UInt8) (address : ℕ) (word : UInt32) : ℕ → UInt8 :=
  writeU32 mem address word.toNat

/-- The words one behind the other. -/
def storeWords (mem : ℕ → UInt8) (address : ℕ) : List UInt32 → ℕ → UInt8
  | [] => mem
  | word :: words => storeWords (storeWord mem address word) (address + 4) words

/-- The stack pointer after a push. -/
@[irreducible]
def below (esp : ℕ) : ℕ := (esp + 2 ^ 32 - 4) % 2 ^ 32

/-- The memory and the stack pointer after the words are pushed, the first one first. -/
def pushAll (mem : ℕ → UInt8) (esp : ℕ) : List UInt32 → (ℕ → UInt8) × ℕ
  | [] => (mem, esp)
  | word :: words => pushAll (storeWord mem (below esp) word) (below esp) words

variable {mem mem' : ℕ → UInt8} {address a esp k : ℕ} {word : UInt32} {words : List UInt32}

theorem wordAt_congr (hbytes : ∀ k < 4, mem (address + k) = mem' (address + k)) :
    wordAt mem address = wordAt mem' address := by
  rw [wordAt, wordAt, readU32_congr hbytes]

theorem storeWord_outside (ha : a < address ∨ address + 4 ≤ a) :
    storeWord mem address word a = mem a := by
  rw [storeWord, writeU32]
  exact store_outside ha

@[simp]
theorem wordAt_storeWord_self : wordAt (storeWord mem address word) address = word := by
  rw [wordAt, storeWord, readU32_writeU32_self, Nat.mod_eq_of_lt word.toNat_lt,
    UInt32.ofNat_toNat]

theorem storeWords_outside (ha : a < address ∨ address + 4 * words.length ≤ a) :
    storeWords mem address words a = mem a := by
  induction words generalizing mem address with
  | nil => rfl
  | cons word words ih =>
      rw [List.length_cons] at ha
      rw [storeWords, ih (by omega)]
      exact storeWord_outside (by omega)

theorem wordAt_storeWords (hword : words[k]? = some word) :
    wordAt (storeWords mem address words) (address + 4 * k) = word := by
  induction words generalizing mem address k with
  | nil => cases hword
  | cons head words ih =>
      cases k with
      | zero =>
          obtain rfl : head = word := Option.some.inj hword
          have hkept : wordAt (storeWords (storeWord mem address head) (address + 4) words)
              address = wordAt (storeWord mem address head) address := by
            apply wordAt_congr
            intro k hk
            exact storeWords_outside (by omega)
          exact hkept.trans wordAt_storeWord_self
      | succ k =>
          have hnext := @ih (storeWord mem address head) (address + 4) k hword
          rwa [Nat.add_assoc, Nat.add_comm 4, ← Nat.mul_succ] at hnext

/-! ## The stack -/

theorem below_eq (hroom : 4 ≤ esp) (hesp : esp < 2 ^ 32) : below esp = esp - 4 := by
  unfold below
  omega

theorem pushAll_cons (hroom : 4 ≤ esp) (hesp : esp < 2 ^ 32) :
    pushAll mem esp (word :: words) =
      pushAll (storeWord mem (esp - 4) word) (esp - 4) words := by
  change pushAll (storeWord mem (below esp) word) (below esp) words = _
  rw [below_eq hroom hesp]

theorem pushAll_append (words more : List UInt32) :
    pushAll mem esp (words ++ more) =
      pushAll (pushAll mem esp words).1 (pushAll mem esp words).2 more := by
  induction words generalizing mem esp with
  | nil => rfl
  | cons word words ih => exact ih

theorem pushAll_esp (hroom : 4 * words.length ≤ esp) (hesp : esp < 2 ^ 32) :
    (pushAll mem esp words).2 = esp - 4 * words.length := by
  induction words generalizing mem esp with
  | nil => rfl
  | cons word words ih =>
      rw [List.length_cons] at hroom ⊢
      rw [pushAll_cons (by omega) hesp, ih (by omega) (by omega)]
      omega

/-- Nothing outside the pushed words changes. -/
theorem pushAll_outside (hroom : 4 * words.length ≤ esp) (hesp : esp < 2 ^ 32)
    (ha : a < esp - 4 * words.length ∨ esp ≤ a) :
    (pushAll mem esp words).1 a = mem a := by
  induction words generalizing mem esp with
  | nil => rfl
  | cons word words ih =>
      rw [List.length_cons] at hroom ha
      rw [pushAll_cons (by omega) hesp, ih (by omega) (by omega) (by omega)]
      exact storeWord_outside (by omega)

/-- The words are read back in reverse, from the stack pointer on. -/
theorem wordAt_pushAll (hroom : 4 * words.length ≤ esp) (hesp : esp < 2 ^ 32)
    (hword : words.reverse[k]? = some word) :
    wordAt (pushAll mem esp words).1 (esp - 4 * words.length + 4 * k) = word := by
  induction words generalizing mem esp with
  | nil => cases hword
  | cons head words ih =>
      rw [List.length_cons] at hroom
      rw [List.reverse_cons] at hword
      rw [pushAll_cons (by omega) hesp, List.length_cons]
      have hbottom : esp - 4 * (words.length + 1) = esp - 4 - 4 * words.length := by omega
      by_cases hk : k < words.reverse.length
      · rw [List.getElem?_append_left hk] at hword
        rw [hbottom]
        exact ih (by omega) (by omega) hword
      · rw [List.getElem?_append_right (Nat.not_lt.mp hk), List.length_reverse] at hword
        rw [List.length_reverse] at hk
        obtain ⟨hlast, hhead⟩ := List.getElem?_eq_some_iff.mp hword
        rw [List.length_singleton] at hlast
        obtain rfl : k = words.length := by omega
        rw [show esp - 4 * (words.length + 1) + 4 * words.length = esp - 4 by omega]
        have hkept : wordAt (pushAll (storeWord mem (esp - 4) head) (esp - 4) words).1
            (esp - 4) = wordAt (storeWord mem (esp - 4) head) (esp - 4) := by
          apply wordAt_congr
          intro k hk
          exact pushAll_outside (by omega) (by omega) (by omega)
        rw [hkept, wordAt_storeWord_self]
        simpa using hhead

end KimisOS.Words
