import Mathlib

/-!
# Stores of bytes

A device or a buffer is a function from addresses to bytes.  Ranges are copied
with `store` and `load`; a 16-bit number takes two bytes and a 32-bit number
four, the least significant one first.
-/

namespace KimisOS.ByteStore

/-- `length` bytes written at `address`. -/
def store (mem : ℕ → UInt8) (address : ℕ) (bytes : ℕ → UInt8) (length : ℕ) :
    ℕ → UInt8 := fun a =>
  if address ≤ a ∧ a < address + length then bytes (a - address) else mem a

/-- The bytes from `address` on. -/
def load (mem : ℕ → UInt8) (address : ℕ) : ℕ → UInt8 := fun k => mem (address + k)

def readU16 (mem : ℕ → UInt8) (address : ℕ) : ℕ :=
  (mem address).toNat + 256 * (mem (address + 1)).toNat

def writeU16 (mem : ℕ → UInt8) (address value : ℕ) : ℕ → UInt8 :=
  store mem address (fun k => UInt8.ofNat (value / 256 ^ k)) 2

def readU32 (mem : ℕ → UInt8) (address : ℕ) : ℕ :=
  (mem address).toNat + 256 * (mem (address + 1)).toNat +
    65536 * (mem (address + 2)).toNat + 16777216 * (mem (address + 3)).toNat

def writeU32 (mem : ℕ → UInt8) (address value : ℕ) : ℕ → UInt8 :=
  store mem address (fun k => UInt8.ofNat (value / 256 ^ k)) 4

variable {mem mem' : ℕ → UInt8} {address length : ℕ}

theorem store_inside {bytes : ℕ → UInt8} {k : ℕ} (hk : k < length) :
    store mem address bytes length (address + k) = bytes k := by
  rw [store, if_pos ⟨by omega, by omega⟩, Nat.add_sub_cancel_left]

theorem store_outside {bytes : ℕ → UInt8} {a : ℕ}
    (ha : a < address ∨ address + length ≤ a) :
    store mem address bytes length a = mem a := by
  rw [store, if_neg (by omega)]

theorem store_congr {bytes bytes' : ℕ → UInt8} (hsame : ∀ k < length, bytes k = bytes' k) :
    store mem address bytes length = store mem address bytes' length := by
  funext a
  rw [store, store]
  split
  case isTrue hin => exact hsame _ (by omega)
  case isFalse => rfl

@[simp]
theorem store_zero (mem : ℕ → UInt8) (address : ℕ) (bytes : ℕ → UInt8) :
    store mem address bytes 0 = mem := by
  funext a
  exact store_outside (by omega)

/-- Two stores one behind the other. -/
theorem store_append (bytes : ℕ → UInt8) (more : ℕ) :
    store (store mem address bytes length) (address + length) (load bytes length) more =
      store mem address bytes (length + more) := by
  funext a
  by_cases hlater : address + length ≤ a ∧ a < address + length + more
  · obtain ⟨k, rfl⟩ := Nat.exists_eq_add_of_le hlater.1
    rw [store_inside (by omega), load, Nat.add_assoc address, store_inside (by omega)]
  · rw [store_outside (by omega), store, store]
    congr 1
    exact propext ⟨fun h => ⟨h.1, by omega⟩, fun h => ⟨h.1, by omega⟩⟩

/-- A block of `size` bytes at most, and what is left of `more` further blocks behind
it. -/
theorem store_round (bytes : ℕ → UInt8) (remaining size more : ℕ) :
    store (store mem address bytes (min remaining size)) (address + size) (load bytes size)
        (min (remaining - min remaining size) (more * size)) =
      store mem address bytes (min remaining ((more + 1) * size)) := by
  obtain hshort | hlong := le_or_gt remaining size
  · rw [min_eq_left hshort, Nat.sub_self, Nat.zero_min, store_zero,
      min_eq_left (hshort.trans (Nat.le_mul_of_pos_left _ (Nat.succ_pos more)))]
  · have hcopied : size + min (remaining - size) (more * size) =
        min remaining ((more + 1) * size) := by
      rw [Nat.succ_mul]
      omega
    rw [min_eq_right hlong.le, store_append, hcopied]

/-! ## 16-bit numbers -/

theorem readU16_congr {address' : ℕ} (hbytes : ∀ k < 2, mem (address + k) = mem' (address' + k)) :
    readU16 mem address = readU16 mem' address' := by
  have hzero := hbytes 0 (by decide)
  rw [Nat.add_zero, Nat.add_zero] at hzero
  rw [readU16, readU16, hzero, hbytes 1 (by decide)]

theorem readU16_store (mem : ℕ → UInt8) (address value : ℕ) :
    readU16 (store mem address (fun k => UInt8.ofNat (value / 256 ^ k)) 2) address =
      value % 65536 := by
  have hfirst : store mem address (fun k => UInt8.ofNat (value / 256 ^ k)) 2 address =
      UInt8.ofNat (value / 256 ^ 0) := @store_inside mem address 2 _ 0 (by decide)
  have hsecond : store mem address (fun k => UInt8.ofNat (value / 256 ^ k)) 2 (address + 1) =
      UInt8.ofNat (value / 256 ^ 1) := store_inside (by decide)
  rw [readU16, hfirst, hsecond, UInt8.toNat_ofNat', UInt8.toNat_ofNat']
  omega

theorem readU16_store_outside {bytes : ℕ → UInt8} {a : ℕ}
    (hout : a + 2 ≤ address ∨ address + length ≤ a) :
    readU16 (store mem address bytes length) a = readU16 mem a := by
  apply readU16_congr
  intro k hk
  exact store_outside (by omega)

/-! ## 32-bit numbers -/

theorem readU32_congr {address' : ℕ}
    (hbytes : ∀ k < 4, mem (address + k) = mem' (address' + k)) :
    readU32 mem address = readU32 mem' address' := by
  have h0 := hbytes 0 (by decide)
  have h1 := hbytes 1 (by decide)
  have h2 := hbytes 2 (by decide)
  have h3 := hbytes 3 (by decide)
  rw [Nat.add_zero, Nat.add_zero] at h0
  simp only [readU32, h0, h1, h2, h3]

theorem readU32_load (mem : ℕ → UInt8) (address offset : ℕ) :
    readU32 (load mem address) offset = readU32 mem (address + offset) := by
  apply readU32_congr
  intro k _
  rw [load, Nat.add_assoc]

theorem readU32_store_inside {bytes : ℕ → UInt8} {offset : ℕ}
    (hoffset : offset + 4 ≤ length) :
    readU32 (store mem address bytes length) (address + offset) =
      readU32 bytes offset := by
  apply readU32_congr
  intro k hk
  rw [Nat.add_assoc]
  exact store_inside (by omega)

theorem readU32_store_outside {bytes : ℕ → UInt8} {a : ℕ}
    (ha : a + 4 ≤ address ∨ address + length ≤ a) :
    readU32 (store mem address bytes length) a = readU32 mem a := by
  apply readU32_congr
  intro k hk
  exact store_outside (by omega)

@[simp]
theorem readU32_writeU32_self (mem : ℕ → UInt8) (address value : ℕ) :
    readU32 (writeU32 mem address value) address = value % 2 ^ 32 := by
  have hbyte : ∀ k < 4, (writeU32 mem address value (address + k)).toNat =
      value / 256 ^ k % 256 := by
    intro k hk
    rw [writeU32, store_inside hk]
    simp
  have h0 := hbyte 0 (by decide)
  have h1 := hbyte 1 (by decide)
  have h2 := hbyte 2 (by decide)
  have h3 := hbyte 3 (by decide)
  rw [Nat.add_zero] at h0
  simp only [readU32, h0, h1, h2, h3]
  omega

theorem readU32_writeU32_of_disjoint {a value : ℕ}
    (ha : a + 4 ≤ address ∨ address + 4 ≤ a) :
    readU32 (writeU32 mem address value) a = readU32 mem a :=
  readU32_store_outside ha

theorem readU32_lt (mem : ℕ → UInt8) (address : ℕ) :
    readU32 mem address < 2 ^ 32 := by
  have h0 := (mem address).toNat_lt
  have h1 := (mem (address + 1)).toNat_lt
  have h2 := (mem (address + 2)).toNat_lt
  have h3 := (mem (address + 3)).toNat_lt
  unfold readU32
  omega

end KimisOS.ByteStore
