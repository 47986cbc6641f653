import KimisOS.Fat32.Names

/-!
# Short names under both paddings

The standard fills up base and extension of a short name with spaces,
`diskwrite` with zeros.  The walk back over the base treats them alike; the
extension is copied as it is, and a dot goes in front of it unless its first
byte is zero.
-/

namespace KimisOS.Fat32

def space : UInt8 := 0x20

/-- The name an entry stands for. -/
def fullName (base ext : CString) : CString :=
  if ext = [] then base else base ++ 0x2e :: ext

/-- An entry with a base and an extension, filled up with one byte. -/
structure PaddedEntry (dirData : ℕ → UInt8) (i : ℕ) (pad : UInt8) (base ext : CString) :
    Prop where
  padding : pad = space ∨ pad = 0
  baseLength : 1 ≤ base.length ∧ base.length ≤ 8
  extLength : ext.length ≤ 3
  baseChars : ∀ c ∈ base, c ≠ 0 ∧ c ≠ space
  extChars : ∀ c ∈ ext, c ≠ 0 ∧ c ≠ space
  baseBytes : ∀ j < 8, dirData (32 * i + j) = base.getD j pad
  extBytes : ∀ j < 3, dirData (32 * i + 8 + j) = ext.getD j pad

section PaddedEntry

variable {dirData : ℕ → UInt8} {i : ℕ} {pad : UInt8} {base ext : CString}

theorem isBlank_of_pad (hpad : pad = space ∨ pad = 0) : isBlank pad = true := by
  rcases hpad with rfl | rfl
  · decide
  · decide

theorem PaddedEntry.baseChar_eq (hentry : PaddedEntry dirData i pad base ext) {j : ℕ}
    (hj : j < base.length) : baseChar dirData i j = base.getD j 0 := by
  have hlength := hentry.baseLength
  rw [baseChar, if_pos (by omega), hentry.baseBytes j (by omega),
    List.getD_eq_getElem _ _ hj, List.getD_eq_getElem _ _ hj]

theorem PaddedEntry.baseChar_blank (hentry : PaddedEntry dirData i pad base ext) {j : ℕ}
    (hj : base.length ≤ j) : isBlank (baseChar dirData i j) = true := by
  rw [baseChar]
  split
  · rename_i hin
    rw [hentry.baseBytes j hin, List.getD_eq_default _ _ hj]
    exact isBlank_of_pad hentry.padding
  · decide

/-- The walk back ends at the last character of the base. -/
theorem PaddedEntry.lastChar_eq (hentry : PaddedEntry dirData i pad base ext) {j : ℕ}
    (hlow : base.length ≤ j + 1) : lastChar dirData i j = base.length - 1 := by
  have hlength := hentry.baseLength
  induction j with
  | zero =>
      rw [lastChar]
      omega
  | succ j ih =>
      rw [lastChar]
      by_cases hend : base.length ≤ j + 1
      · rw [if_pos (hentry.baseChar_blank hend)]
        exact ih hend
      · have hlt : j + 1 < base.length := by omega
        have hchar := hentry.baseChars _ (List.getElem_mem hlt)
        have hsolid : ¬ isBlank (baseChar dirData i (j + 1)) = true := by
          rw [hentry.baseChar_eq hlt, List.getD_eq_getElem _ _ hlt]
          simpa [isBlank, space] using hchar.symm
        rw [if_neg hsolid]
        omega

/-- What the array holds behind the base. -/
theorem PaddedEntry.copied (hentry : PaddedEntry dirData i pad base ext) (k : ℕ) :
    fat32CopyShortFilename dirData i k =
      if k < base.length then base.getD k 0
      else if k = base.length then (if ext.getD 0 pad ≠ 0 then 0x2e else 0)
      else if k < base.length + 4 then ext.getD (k - (base.length + 1)) pad
      else 0 := by
  have hlength := hentry.baseLength
  have hlast := hentry.lastChar_eq (show base.length ≤ 8 + 1 by omega)
  have hfirst := hentry.extBytes 0 (by decide)
  rw [Nat.add_zero] at hfirst
  simp only [fat32CopyShortFilename, hlast, hfirst]
  by_cases hbase : k < base.length
  · rw [if_pos (by omega), if_pos hbase, hentry.baseChar_eq hbase]
  · rw [if_neg (by omega), if_neg hbase]
    by_cases hdot : k = base.length
    · rw [if_pos (by omega), if_pos hdot]
    · rw [if_neg (by omega), if_neg hdot]
      by_cases hext : k < base.length + 4
      · rw [if_pos (by omega), if_pos hext,
          show k - (base.length - 1 + 2) = k - (base.length + 1) by omega,
          hentry.extBytes _ (by omega)]
      · rw [if_neg (by omega), if_neg hext]

theorem fullName_chars (hentry : PaddedEntry dirData i pad base ext) :
    ∀ c ∈ fullName base ext, c ≠ 0 := by
  intro c hc
  rw [fullName] at hc
  split at hc
  · exact (hentry.baseChars c hc).1
  · rcases List.mem_append.mp hc with hbase | hrest
    · exact (hentry.baseChars c hbase).1
    · rcases List.mem_cons.mp hrest with rfl | hext
      · decide
      · exact (hentry.extChars c hext).1

/-- With zeros, or an extension of three characters, the name comes out. -/
theorem PaddedEntry.spells (hentry : PaddedEntry dirData i pad base ext)
    (hfull : pad = 0 ∨ ext.length = 3) :
    Spells (fat32CopyShortFilename dirData i) (fullName base ext) := by
  have hbaseLength := hentry.baseLength
  have hextLength := hentry.extLength
  have hchars := fullName_chars hentry
  rcases List.eq_nil_or_concat ext with rfl | ⟨_, _, hconcat⟩
  · -- without an extension the padding is zero, and so is what would be the dot
    have hpad : pad = 0 := hfull.resolve_right (by decide)
    rw [fullName, if_pos rfl] at hchars ⊢
    refine ⟨by omega, hchars, ?_, ?_⟩
    · intro k c hk
      have hlt := (List.getElem?_eq_some_iff.mp hk).1
      rw [hentry.copied, if_pos hlt, List.getD_eq_getElem?_getD, hk]
      rfl
    · rw [hentry.copied, if_neg (by omega), if_pos rfl, hpad]
      rfl
  · have hne : ext ≠ [] := by
      rw [hconcat]
      simp
    have hpos : 0 < ext.length := List.length_pos_iff.mpr hne
    have hdot : ext.getD 0 pad ≠ 0 := by
      rw [List.getD_eq_getElem _ _ hpos]
      exact (hentry.extChars _ (List.getElem_mem hpos)).1
    rw [fullName, if_neg hne] at hchars ⊢
    have hlength : (base ++ 0x2e :: ext).length = base.length + (ext.length + 1) := by
      simp
    refine ⟨by omega, hchars, ?_, ?_⟩
    · intro k c hk
      have hlt := (List.getElem?_eq_some_iff.mp hk).1
      rw [hlength] at hlt
      rw [hentry.copied]
      by_cases hbase : k < base.length
      · rw [List.getElem?_append_left hbase] at hk
        rw [if_pos hbase, List.getD_eq_getElem?_getD, hk]
        rfl
      · rw [List.getElem?_append_right (by omega)] at hk
        rw [if_neg hbase]
        by_cases hmid : k = base.length
        · rw [hmid, Nat.sub_self, List.getElem?_cons_zero] at hk
          rw [if_pos hmid, if_pos hdot]
          exact Option.some.inj hk
        · obtain ⟨j, rfl⟩ := Nat.exists_eq_add_of_le (show base.length + 1 ≤ k by omega)
          rw [show base.length + 1 + j - base.length = j + 1 by omega,
            List.getElem?_cons_succ] at hk
          rw [if_neg hmid, if_pos (by omega),
            show base.length + 1 + j - (base.length + 1) = j by omega,
            List.getD_eq_getElem?_getD, hk]
          rfl
    · rw [hlength, hentry.copied, if_neg (by omega), if_neg (by omega)]
      split
      · rename_i hinside
        -- fewer than three characters are followed by a zero
        have hpad : pad = 0 := hfull.resolve_right (by omega)
        rw [List.getD_eq_default _ _ (by omega), hpad]
      · rfl

/-- A short name is decoded exactly when it is filled up with zeros, or its
extension needs no filling. -/
theorem shortName_decoded_iff (dirData : ℕ → UInt8) (i : ℕ) (pad : UInt8)
    (base ext : CString) (hentry : PaddedEntry dirData i pad base ext) :
    Spells (fat32CopyShortFilename dirData i) (fullName base ext) ↔
      pad = 0 ∨ ext.length = 3 := by
  constructor
  · intro hspells
    by_contra hneither
    obtain ⟨hnonzero, hshort⟩ := not_or.mp hneither
    have hextLength := hentry.extLength
    have hpad : pad = space := hentry.padding.resolve_right hnonzero
    have hterminator := hspells.terminator
    rw [fullName, hentry.copied] at hterminator
    by_cases hempty : ext = []
    · -- the dot of an extension of spaces
      rw [if_pos hempty, if_neg (by omega), if_pos rfl, hempty, hpad] at hterminator
      exact absurd hterminator (by decide)
    · have hlength : (base ++ 0x2e :: ext).length = base.length + (ext.length + 1) := by
        simp
      rw [if_neg hempty, hlength, if_neg (by omega), if_neg (by omega),
        if_pos (by omega), List.getD_eq_default _ _ (by omega), hpad] at hterminator
      exact absurd hterminator (by decide)
  · exact hentry.spells

end PaddedEntry

/-- An entry of twelve bytes at the start of a directory. -/
def entryBytes (bytes : CString) : ℕ → UInt8 := fun k => bytes.getD k 0

theorem shortName_decoded_zeros :
    Spells (fat32CopyShortFilename (entryBytes [0x61, 0x62]) 0) [0x61, 0x62] := by
  refine (shortName_decoded_iff (entryBytes [0x61, 0x62]) 0 0 [0x61, 0x62] []
    ⟨by decide, by decide, by decide, by simp [space], by simp [space], ?_, ?_⟩).mpr (.inl rfl)
  · intro j hj
    interval_cases j <;> decide
  · intro j hj
    interval_cases j <;> decide

/-- `AB` filled up with spaces gets a dot and the spaces of its extension. -/
theorem shortName_spaces :
    PaddedEntry (entryBytes ([0x41, 0x42] ++ List.replicate 9 0x20)) 0 space
        [0x41, 0x42] [] ∧
      ¬ Spells (fat32CopyShortFilename
        (entryBytes ([0x41, 0x42] ++ List.replicate 9 0x20)) 0) [0x41, 0x42] := by
  constructor
  · refine ⟨by decide, by decide, by decide, by simp [space], by simp [space], ?_, ?_⟩
    · intro j hj
      interval_cases j <;> decide
    · intro j hj
      interval_cases j <;> decide
  · intro hspells
    exact absurd hspells.terminator (by decide)

end KimisOS.Fat32
