import KimisOS.Vfs.RamCreate
import Mathlib.Data.Nat.Digits.Lemmas

/-!
# Numbers as text

`itoa` produces the digits from the last one on in a buffer of 12 characters and
writes them backwards behind the place of the sign.  `atoi` takes every character
for a digit, and those it does not know for zeros.
-/

namespace KimisOS.Text

open KimisOS.Fat32 (CString)
open KimisOS.RamData (HoldsString)

/-- The characters of the digits, with the terminator. -/
def carr : List UInt8 :=
  ("0123456789ABCDEFGHIJKLMNOPQRSTUVWXYZ".toList.map fun c => UInt8.ofNat c.toNat) ++ [0]

def minus : UInt8 := 45

/-! ## `itoa` -/

/-- The loop over the digits, with the room that is left in `buffer`: it has no
result where it writes behind the buffer, reads behind `carr` or divides by zero. -/
def scratchDigits (base : ℕ) : ℕ → ℕ → Option (List UInt8)
  | _, 0 => some []
  | 0, _ + 1 => none
  | room + 1, tmp + 1 =>
      if base = 0 then none
      else
        carr[(tmp + 1) % base]?.bind fun digit =>
          (scratchDigits base room ((tmp + 1) / base)).map (digit :: ·)

/-- The loop that moves the digits: `ptr` is the number of those that are left. -/
def placeDigits (res negative : ℕ) : (ℕ → UInt8) → List UInt8 → (ℕ → UInt8)
  | mem, [] => mem
  | mem, digit :: buffer =>
      placeDigits res negative
        (Function.update mem (res + (buffer.length + negative)) digit) buffer

/-- The terminator, the digits over it, and what is added for the sign. -/
def writeDigits (mem : ℕ → UInt8) (res negative : ℕ) (buffer : List UInt8) : ℕ → UInt8 :=
  let mem := Function.update mem (res + buffer.length) 0
  let mem := placeDigits res negative mem buffer
  Function.update mem res (mem res + UInt8.ofNat negative * minus)

def itoa (data : ℤ) (mem : ℕ → UInt8) (res base : ℕ) : Option (ℕ → UInt8) :=
  if res = 0 then some mem
  else if data = 0 then some (Function.update (Function.update mem res 48) (res + 1) 0)
  else
    let negative := if data < 0 ∧ base = 10 then 1 else 0
    let data := if data < 0 ∧ base = 10 then -data else data
    let tmp := (data % 2 ^ 32).toNat
    (scratchDigits base 12 tmp).map (writeDigits mem res negative)

/-! ## `atoi` -/

/-- What a character adds to the total. -/
def digitValue (base : ℕ) (c : UInt8) : ℕ :=
  (if 48 ≤ c.toNat ∧ c.toNat ≤ 57 - (if base < 10 then 10 - base else 0) then
    c.toNat - 48 else 0) +
  (if 10 < base ∧ 97 ≤ c.toNat ∧ c.toNat < 128 ∧
      c.toNat ≤ (102 + base - 16) % 2 ^ 32 then
    c.toNat - 97 + 10 else 0)

/-- The loop of `atoi` from a character on. -/
def atoiFrom (mem : ℕ → UInt8) (base : ℕ) : ℕ → ℕ → ℕ → Option ℕ
  | 0, _, _ => none
  | rounds + 1, str, total =>
      if mem str = 0 then some total
      else atoiFrom mem base rounds (str + 1)
        ((total * base + digitValue base (mem str)) % 2 ^ 32)

def atoi (mem : ℕ → UInt8) (rounds str base : ℕ) : Option ℕ := atoiFrom mem base rounds str 0

/-! ## What the strings should be -/

def digitChar (digit : ℕ) : UInt8 := carr.getD digit 0

/-- A number in positional notation. -/
def numeral (base number : ℕ) : CString :=
  if number = 0 then [48] else ((Nat.digits base number).map digitChar).reverse

/-- The text of a number: the sign and the magnitude for base 10, the number modulo
`2 ^ 32` for other bases. -/
def representation (base : ℕ) (data : ℤ) : CString :=
  if data < 0 ∧ base = 10 then minus :: numeral base data.natAbs
  else numeral base (data % 2 ^ 32).toNat

/-- The text is written, and a number that is not negative is read back. -/
structure Converts (mem : ℕ → UInt8) (res base : ℕ) (data : ℤ) : Prop where
  writes : ∃ mem', itoa data mem res base = some mem' ∧
    HoldsString mem' res (representation base data)
  returns : 0 ≤ data → ∃ mem', itoa data mem res base = some mem' ∧
    ∃ rounds, atoi mem' rounds res base = some data.toNat

section Itoa

variable {base room tmp res negative a k : ℕ} {mem : ℕ → UInt8} {buffer : List UInt8}
  {data : ℤ}

theorem carr_getElem? (hdigit : k < 37) : carr[k]? = some (digitChar k) := by
  rw [digitChar, List.getD_eq_getElem?_getD]
  revert k
  decide

/-- The digits fit into the buffer when the number is small enough. -/
theorem scratchDigits_eq (hbase : 2 ≤ base) (htable : base ≤ 36) (htmp : tmp < base ^ room) :
    scratchDigits base room tmp = some ((Nat.digits base tmp).map digitChar) := by
  induction room generalizing tmp with
  | zero =>
      obtain rfl : tmp = 0 := by
        rw [Nat.pow_zero] at htmp
        omega
      rw [scratchDigits, Nat.digits_zero]
      rfl
  | succ room ih =>
      cases tmp with
      | zero =>
          rw [scratchDigits, Nat.digits_zero]
          rfl
      | succ tmp =>
          have hquotient : (tmp + 1) / base < base ^ room := by
            rw [Nat.div_lt_iff_lt_mul (by omega), ← Nat.pow_succ]
            exact htmp
          have hdigit : (tmp + 1) % base < 37 :=
            (Nat.mod_lt _ (by omega)).trans_le (by omega)
          rw [scratchDigits, if_neg (by omega), carr_getElem? hdigit, Option.bind_some,
            ih hquotient, Option.map_some,
            Nat.digits_of_two_le_of_pos hbase (Nat.succ_pos tmp), List.map_cons]

theorem placeDigits_apply : placeDigits res negative mem buffer a =
    if res + negative ≤ a ∧ a < res + negative + buffer.length then
      buffer.reverse.getD (a - (res + negative)) 0
    else mem a := by
  induction buffer generalizing mem with
  | nil => rw [placeDigits, if_neg (by rw [List.length_nil]; omega)]
  | cons digit buffer ih =>
      rw [placeDigits, ih, List.length_cons, List.reverse_cons]
      have hlength : buffer.reverse.length = buffer.length := List.length_reverse
      by_cases hbefore : res + negative ≤ a ∧ a < res + negative + buffer.length
      · rw [if_pos hbefore, if_pos (by omega), List.getD_append _ _ _ _ (by omega)]
      · rw [if_neg hbefore]
        by_cases hlast : a = res + negative + buffer.length
        · rw [if_pos (by omega), List.getD_append_right _ _ _ _ (by omega), hlength, hlast,
            Nat.add_sub_cancel_left, Nat.sub_self, Nat.add_assoc,
            Nat.add_comm negative buffer.length, Function.update_self]
          rfl
        · rw [if_neg (by omega), Function.update_of_ne (by omega)]

theorem holdsString_writeDigits : HoldsString (writeDigits mem res 0 buffer) res
    buffer.reverse := by
  have hsame : writeDigits mem res 0 buffer =
      placeDigits res 0 (Function.update mem (res + buffer.length) 0) buffer := by
    have hzero : UInt8.ofNat 0 * minus = 0 := rfl
    rw [writeDigits, hzero, add_zero, Function.update_eq_self]
  intro k hk
  rw [List.length_reverse] at hk
  rw [hsame, placeDigits_apply, Nat.add_zero]
  by_cases hinside : k < buffer.length
  · rw [if_pos (by omega), Nat.add_sub_cancel_left]
  · obtain rfl : k = buffer.length := by omega
    rw [if_neg (by omega), Function.update_self]
    exact (List.getD_eq_default _ _ (List.length_reverse).le).symm

/-- With a sign the digits cover the terminator, and the sign is added to what was
there. -/
theorem holdsString_writeDigits_negative (hbuffer : buffer ≠ []) :
    HoldsString (writeDigits mem res 1 buffer) res (minus :: buffer.reverse) ↔
      mem res = 0 ∧ mem (res + buffer.length + 1) = 0 := by
  have hpositive : 0 < buffer.length := List.length_pos_of_ne_nil hbuffer
  have hdigits : ∀ a, a ≠ res → writeDigits mem res 1 buffer a =
      placeDigits res 1 (Function.update mem (res + buffer.length) 0) buffer a := by
    intro a ha
    rw [writeDigits, Function.update_of_ne ha]
  have hfirst : writeDigits mem res 1 buffer res = mem res + minus := by
    rw [writeDigits, Function.update_self, placeDigits_apply, if_neg (by omega),
      Function.update_of_ne (by omega)]
    rfl
  have hinside : ∀ k < buffer.length, writeDigits mem res 1 buffer (res + (k + 1)) =
      buffer.reverse.getD k 0 := by
    intro k hk
    rw [hdigits _ (by omega), placeDigits_apply, if_pos (by omega)]
    congr 1
    omega
  have hend : writeDigits mem res 1 buffer (res + (buffer.length + 1)) =
      mem (res + buffer.length + 1) := by
    rw [hdigits _ (by omega), placeDigits_apply, if_neg (by omega),
      Function.update_of_ne (by omega), Nat.add_assoc]
  constructor
  · intro hholds
    have hsign := hholds 0 (Nat.zero_le _)
    have hlast := hholds (buffer.length + 1) (by simp)
    rw [Nat.add_zero, hfirst] at hsign
    rw [hend, List.getD_cons_succ, List.getD_eq_default _ _ (List.length_reverse).le] at hlast
    exact ⟨add_eq_right.mp hsign, hlast⟩
  · intro hclear k hk
    cases k with
    | zero =>
        rw [Nat.add_zero, hfirst, hclear.1, zero_add]
        rfl
    | succ k =>
        rw [List.getD_cons_succ]
        rw [List.length_cons, List.length_reverse] at hk
        by_cases hlast : k = buffer.length
        · rw [hlast, hend, hclear.2, List.getD_eq_default _ _ (List.length_reverse).le]
        · exact hinside k (by omega)

/-- The number is not zero, and it is produced without its sign. -/
theorem itoa_eq (hres : res ≠ 0) (hdata : data ≠ 0) (hbase : 8 ≤ base)
    (htable : base ≤ 36) (hlow : -2 ^ 31 ≤ data) (hhigh : data < 2 ^ 32) :
    itoa data mem res base = some
      (if data < 0 ∧ base = 10 then
        writeDigits mem res 1 ((Nat.digits base data.natAbs).map digitChar)
      else
        writeDigits mem res 0 ((Nat.digits base (data % 2 ^ 32).toNat).map digitChar)) := by
  have hroom : ∀ tmp < 2 ^ 32, scratchDigits base 12 tmp =
      some ((Nat.digits base tmp).map digitChar) := by
    intro tmp htmp
    refine scratchDigits_eq (by omega) htable (htmp.trans ?_)
    calc 2 ^ 32 < 8 ^ 12 := by decide
      _ ≤ base ^ 12 := Nat.pow_le_pow_left hbase 12
  rw [itoa, if_neg hres, if_neg hdata]
  by_cases hnegative : data < 0 ∧ base = 10
  · have htmp : (-data % 2 ^ 32).toNat = data.natAbs := by omega
    simp only [if_pos hnegative]
    rw [htmp, hroom _ (by omega)]
    rfl
  · simp only [if_neg hnegative]
    rw [hroom _ (by omega)]
    rfl

theorem numeral_of_ne (hnumber : k ≠ 0) :
    numeral base k = ((Nat.digits base k).map digitChar).reverse := if_neg hnumber

/-- A number that is not negative, or in another base than 10, is always written. -/
theorem itoa_unsigned (hres : res ≠ 0) (hbase : 8 ≤ base) (htable : base ≤ 36)
    (hlow : -2 ^ 31 ≤ data) (hhigh : data < 2 ^ 32) (hunsigned : ¬(data < 0 ∧ base = 10)) :
    ∃ mem', itoa data mem res base = some mem' ∧
      HoldsString mem' res (numeral base (data % 2 ^ 32).toNat) := by
  by_cases hdata : data = 0
  · refine ⟨Function.update (Function.update mem res 48) (res + 1) 0, ?_, ?_⟩
    · rw [itoa, if_neg hres, if_pos hdata]
    · intro k hk
      rw [hdata] at hk ⊢
      obtain rfl | rfl : k = 0 ∨ k = 1 := by
        have hlength : (numeral base ((0 : ℤ) % 2 ^ 32).toNat).length = 1 := rfl
        omega
      · rw [Function.update_of_ne (by omega), Nat.add_zero, Function.update_self]
        rfl
      · rw [Function.update_self]
        rfl
  · refine ⟨_, itoa_eq hres hdata hbase htable hlow hhigh, ?_⟩
    rw [if_neg hunsigned, numeral_of_ne (by omega)]
    exact holdsString_writeDigits

theorem writes_iff (hres : res ≠ 0) (hbase : 8 ≤ base) (htable : base ≤ 36)
    (hlow : -2 ^ 31 ≤ data) (hhigh : data < 2 ^ 32) :
    (∃ mem', itoa data mem res base = some mem' ∧
        HoldsString mem' res (representation base data)) ↔
      (data < 0 → base = 10 →
        mem res = 0 ∧ mem (res + (numeral 10 data.natAbs).length + 1) = 0) := by
  by_cases hnegative : data < 0 ∧ base = 10
  · have hnumber : data.natAbs ≠ 0 := by omega
    have hdigits : (Nat.digits 10 data.natAbs).map digitChar ≠ [] := by
      rw [ne_eq, List.map_eq_nil_iff, Nat.digits_eq_nil_iff_eq_zero]
      exact hnumber
    obtain ⟨hsign, rfl⟩ := hnegative
    rw [itoa_eq hres (by omega) hbase htable hlow hhigh, if_pos ⟨hsign, rfl⟩, representation,
      if_pos ⟨hsign, rfl⟩, numeral_of_ne hnumber, List.length_reverse,
      ← holdsString_writeDigits_negative hdigits]
    constructor
    · rintro ⟨mem', hmem', hholds⟩ - -
      rwa [Option.some.inj hmem']
    · intro hholds
      exact ⟨_, rfl, hholds hsign rfl⟩
  · have hwritten := @itoa_unsigned base res mem data hres hbase htable hlow hhigh hnegative
    constructor
    · intro _ hsign hten
      exact absurd ⟨hsign, hten⟩ hnegative
    · intro _
      rw [representation, if_neg hnegative]
      exact hwritten

end Itoa

/-! ## Reading a number back -/

section Atoi

variable {base str total value digit number : ℕ} {mem : ℕ → UInt8} {chars : CString}
  {digits : List ℕ}

/-- One character of `atoi`. -/
def atoiStep (base total : ℕ) (c : UInt8) : ℕ := (total * base + digitValue base c) % 2 ^ 32

/-- The loop ends at the terminator, with what the characters add up to. -/
theorem atoiFrom_iff (hholds : HoldsString mem str chars) (hchars : 0 ∉ chars) :
    (∃ rounds, atoiFrom mem base rounds str total = some value) ↔
      chars.foldl (atoiStep base) total = value := by
  induction chars generalizing str total with
  | nil =>
      have hend : mem str = 0 := hholds 0 le_rfl
      constructor
      · rintro ⟨rounds, hreturn⟩
        cases rounds with
        | zero => cases hreturn
        | succ rounds =>
            rw [atoiFrom, if_pos hend] at hreturn
            exact Option.some.inj hreturn
      · intro hvalue
        refine ⟨1, ?_⟩
        rw [atoiFrom, if_pos hend]
        exact congrArg some hvalue
  | cons c chars ih =>
      have hc : mem str = c := hholds 0 (Nat.zero_le _)
      have hne : mem str ≠ 0 := by
        rw [hc]
        exact fun hzero => hchars (List.mem_cons.mpr (.inl hzero.symm))
      have hrest : HoldsString mem (str + 1) chars := by
        intro k hk
        rw [Nat.add_assoc, Nat.add_comm 1 k]
        exact hholds (k + 1) (Nat.succ_le_succ hk)
      rw [List.foldl_cons, ← ih hrest (fun hmem => hchars (List.mem_cons_of_mem _ hmem)),
        ← hc]
      constructor
      · rintro ⟨rounds, hreturn⟩
        cases rounds with
        | zero => cases hreturn
        | succ rounds =>
            rw [atoiFrom, if_neg hne] at hreturn
            exact ⟨rounds, hreturn⟩
      · rintro ⟨rounds, hreturn⟩
        refine ⟨rounds + 1, ?_⟩
        rw [atoiFrom, if_neg hne]
        exact hreturn

/-- What the digit of a base counts for: `atoi` does not know the capital letters. -/
def keptDigit (digit : ℕ) : ℕ := if digit < 10 then digit else 0

theorem digitValue_digitChar (hbase : base = 8 ∨ base = 10 ∨ base = 16)
    (hdigit : digit < base) : digitValue base (digitChar digit) = keptDigit digit := by
  obtain rfl | rfl | rfl := hbase
  all_goals
    revert digit
    decide

/-- `atoi` adds up what the characters of the digits count for. -/
theorem foldl_atoiStep_map {char : ℕ → UInt8} {counted : ℕ → ℕ}
    (hchar : ∀ digit ∈ digits, digitValue base (char digit) = counted digit) :
    (digits.map char).reverse.foldl (atoiStep base) 0 =
      Nat.ofDigits base (digits.map counted) % 2 ^ 32 := by
  induction digits with
  | nil => rfl
  | cons digit digits ih =>
      rw [List.map_cons, List.reverse_cons, List.foldl_append, List.foldl_cons, List.foldl_nil,
        ih fun digit hmem => hchar digit (List.mem_cons_of_mem _ hmem), atoiStep,
        hchar digit List.mem_cons_self, List.map_cons,
        Nat.ofDigits_cons, Nat.mul_comm base]
      rw [Nat.add_mod, Nat.mod_mul_mod, ← Nat.add_mod, Nat.add_comm]

theorem foldl_atoiStep (hbase : base = 8 ∨ base = 10 ∨ base = 16)
    (hdigits : ∀ digit ∈ digits, digit < base) :
    (digits.map digitChar).reverse.foldl (atoiStep base) 0 =
      Nat.ofDigits base (digits.map keptDigit) % 2 ^ 32 :=
  foldl_atoiStep_map fun digit hmem => digitValue_digitChar hbase (hdigits digit hmem)

theorem ofDigits_keptDigit_le : Nat.ofDigits base (digits.map keptDigit) ≤
    Nat.ofDigits base digits := by
  induction digits with
  | nil => exact le_rfl
  | cons digit digits ih =>
      rw [List.map_cons, Nat.ofDigits_cons, Nat.ofDigits_cons]
      have hkept : keptDigit digit ≤ digit := by
        rw [keptDigit]
        split
        · exact le_rfl
        · exact Nat.zero_le _
      exact Nat.add_le_add hkept (Nat.mul_le_mul_left base ih)

/-- A digit that `atoi` does not know makes the number smaller. -/
theorem foldl_digits_iff (hbase : base = 8 ∨ base = 10 ∨ base = 16)
    (hnumber : number < 2 ^ 32) :
    ((Nat.digits base number).map digitChar).reverse.foldl (atoiStep base) 0 = number ↔
      ∀ digit ∈ Nat.digits base number, digit < 10 := by
  have hbelow : ∀ digit ∈ Nat.digits base number, digit < base := fun digit hmem =>
    Nat.digits_lt_base (by omega) hmem
  have hle := @ofDigits_keptDigit_le base (Nat.digits base number)
  rw [Nat.ofDigits_digits] at hle
  rw [foldl_atoiStep hbase hbelow, Nat.mod_eq_of_lt (by omega)]
  constructor
  · intro hsame digit hmem
    have hkept : (Nat.digits base number).map keptDigit = Nat.digits base number := by
      refine Nat.ofDigits_inj_of_len_eq (by omega : 1 < base) (List.length_map _) ?_ hbelow ?_
      · intro kept hmem
        obtain ⟨digit, hin, rfl⟩ := List.mem_map.mp hmem
        have hdigit := hbelow digit hin
        rw [keptDigit]
        split
        · exact hdigit
        · omega
      · rw [Nat.ofDigits_digits]
        exact hsame
    by_contra hlarge
    have hzero : keptDigit digit = digit := List.map_inj_left.mp
      (hkept.trans (List.map_id _).symm) digit hmem
    rw [keptDigit, if_neg hlarge] at hzero
    omega
  · intro hsmall
    have hkept : (Nat.digits base number).map keptDigit = Nat.digits base number :=
      (List.map_inj_left.mpr fun digit hmem => if_pos (hsmall digit hmem)).trans
        (List.map_id _)
    rw [hkept, Nat.ofDigits_digits]

theorem foldl_numeral_iff (hbase : base = 8 ∨ base = 10 ∨ base = 16)
    (hnumber : number < 2 ^ 32) :
    (numeral base number).foldl (atoiStep base) 0 = number ↔
      ∀ digit ∈ Nat.digits base number, digit < 10 := by
  by_cases hzero : number = 0
  · subst hzero
    have hread : (numeral base 0).foldl (atoiStep base) 0 = 0 := by
      obtain rfl | rfl | rfl := hbase
      all_goals rfl
    rw [hread, Nat.digits_zero]
    exact iff_of_true rfl (by simp)
  · rw [numeral_of_ne hzero]
    exact foldl_digits_iff hbase hnumber

theorem zero_notMem_numeral (hbase : 8 ≤ base) (htable : base ≤ 16) :
    0 ∉ numeral base number := by
  by_cases hzero : number = 0
  · subst hzero
    have hnumeral : numeral base 0 = [48] := rfl
    rw [hnumeral]
    decide
  · rw [numeral_of_ne hzero, List.mem_reverse, List.mem_map]
    rintro ⟨digit, hmem, hchar⟩
    have hdigit : digit < 16 :=
      (Nat.digits_lt_base (by omega) hmem).trans_le htable
    have hnonzero : ∀ digit < 16, digitChar digit ≠ 0 := by decide
    exact hnonzero digit hdigit hchar

end Atoi

section Converts

variable {res base : ℕ} {mem : ℕ → UInt8} {data : ℤ}

/-- A number is converted and read back exactly when the buffer holds zeros where a
negative decimal needs them, and a hexadecimal number has no letters. -/
theorem converts_iff (hres : res ≠ 0) (hbase : base = 8 ∨ base = 10 ∨ base = 16)
    (hlow : -2 ^ 31 ≤ data) (hhigh : data < 2 ^ 32) :
    Converts mem res base data ↔
      (data < 0 → base = 10 →
        mem res = 0 ∧ mem (res + (numeral 10 data.natAbs).length + 1) = 0) ∧
      (0 ≤ data → base = 16 → ∀ digit ∈ Nat.digits 16 data.toNat, digit < 10) := by
  have hbounds : 8 ≤ base ∧ base ≤ 16 := by omega
  have hwrites := @writes_iff base res mem data hres hbounds.1 (by omega) hlow hhigh
  have hreturns : 0 ≤ data → ((∃ mem', itoa data mem res base = some mem' ∧
      ∃ rounds, atoi mem' rounds res base = some data.toNat) ↔
        ∀ digit ∈ Nat.digits base data.toNat, digit < 10) := by
    intro hdata
    obtain ⟨mem', hmem', hholds⟩ := @itoa_unsigned base res mem data hres hbounds.1
      (by omega) hlow hhigh (by omega)
    have hnumber : (data % 2 ^ 32).toNat = data.toNat := by omega
    rw [hnumber] at hholds
    rw [← foldl_numeral_iff hbase (by omega),
      ← atoiFrom_iff hholds (zero_notMem_numeral hbounds.1 hbounds.2)]
    constructor
    · rintro ⟨written, hwritten, hread⟩
      obtain rfl : mem' = written := Option.some.inj (hmem'.symm.trans hwritten)
      exact hread
    · intro hread
      exact ⟨mem', hmem', hread⟩
  constructor
  · intro hconverts
    refine ⟨hwrites.mp hconverts.writes, ?_⟩
    rintro hdata rfl
    exact (hreturns hdata).mp (hconverts.returns hdata)
  · intro hcondition
    refine ⟨hwrites.mpr hcondition.1, ?_⟩
    intro hdata
    refine (hreturns hdata).mpr ?_
    intro digit hmem
    by_cases hsixteen : base = 16
    · subst hsixteen
      exact hcondition.2 hdata rfl digit hmem
    · have hdigit := Nat.digits_lt_base (by omega : 1 < base) hmem
      omega

end Converts

/-- A buffer that was used before. -/
def usedBuffer : ℕ → UInt8 := fun _ => 0x78

theorem converts_decimal : Converts usedBuffer 1 10 4294967295 :=
  (converts_iff (by decide) (by decide) (by decide) (by decide)).mpr
    ⟨fun hnegative => absurd hnegative (by decide), fun _ hbase => absurd hbase (by decide)⟩

/-- The sign is added to the old character, and the letters of a number are read as
zeros. -/
theorem converts_fails : ¬Converts usedBuffer 1 10 (-5) ∧ ¬Converts usedBuffer 1 16 255 := by
  constructor
  · intro hconverts
    have hclear := (writes_iff (by decide) (by decide) (by decide) (by decide)
      (by decide)).mp hconverts.writes (by decide) rfl
    exact absurd hclear.1 (by decide)
  · intro hconverts
    obtain ⟨mem', hmem', hread⟩ := hconverts.returns (by decide)
    have hholds : HoldsString mem' 1 (numeral 16 255) := by
      obtain ⟨written, hwritten, hholds⟩ := @itoa_unsigned 16 1 usedBuffer 255 (by decide)
        (by decide) (by decide) (by decide) (by decide) (by decide)
      obtain rfl : mem' = written := Option.some.inj (hmem'.symm.trans hwritten)
      exact hholds
    have hletters := (foldl_numeral_iff (by decide) (by decide)).mp
      ((atoiFrom_iff hholds (zero_notMem_numeral (by decide) (by decide))).mp hread)
    exact absurd (hletters 15 (by norm_num)) (by decide)

end KimisOS.Text
