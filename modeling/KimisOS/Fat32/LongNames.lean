import KimisOS.Fat32.Create

/-!
# Long names

`fat32_create` cuts a name into pieces of 13 characters and stores their entries
last piece first.  `fat32_build_filename_long` puts every piece where its number
says.  Behind the name the entries hold zeros, which end the copy of a piece, so
a name is taken apart and put together again.
-/

namespace KimisOS.Fat32

open KimisOS.ByteStore

/-- `lfn_count` of a name. -/
def lfnCount (name : CString) : ℕ := (name.length + 12) / 13

/-- From entry `start` on, a directory holds the entries of a long name as
`fat32_create` stores them. -/
def HoldsLong (dirData : ℕ → UInt8) (start : ℕ) (name : CString)
    (sfn stale : ℕ → UInt8) (flags : ℕ) : Prop :=
  ∀ i < lfnCount name, ∀ k < 32, dirData (32 * (start + i) + k) =
    newEntry name sfn stale flags (lfnCount name + 1) i k

/-- The bytes of a string with zeros behind it. -/
def stringBytes (name : CString) : ℕ → UInt8 := fun k => name.getD k 0

/-! ## One piece -/

theorem takeWhile_words {chars : CString} (hchars : ∀ c ∈ chars, c ≠ 0 ∧ c < 0x80)
    (count : ℕ) :
    (((List.range count).map fun j => (chars.getD j 0).toNat).takeWhile
      fun word => decide (word ≠ 0xffff ∧ word ≠ 0)).map UInt8.ofNat =
      chars.take count := by
  induction count generalizing chars with
  | zero => simp
  | succ count ih =>
      rw [List.range_succ_eq_map, List.map_cons, List.map_map]
      cases chars with
      | nil => simp
      | cons c chars =>
          have hrest := ih fun d hd => hchars d (List.mem_cons_of_mem c hd)
          have hfirst := hchars c List.mem_cons_self
          have hpos : c.toNat ≠ 0 := by
            intro hzero
            exact hfirst.1 (UInt8.toNat_inj.mp (by simpa using hzero))
          have hlt := c.toNat_lt
          have hkeep : decide (c.toNat ≠ 0xffff ∧ c.toNat ≠ 0) = true := by
            rw [decide_eq_true_eq]
            omega
          have hshift : ((fun j => ((c :: chars).getD j 0).toNat) ∘ Nat.succ) =
              fun j => (chars.getD j 0).toNat := by
            funext j
            simp
          rw [List.getD_cons_zero, List.takeWhile_cons, if_pos hkeep, List.map_cons,
            hshift, hrest, UInt8.ofNat_toNat, List.take_succ_cons]

section Piece

variable {dirData : ℕ → UInt8} {i piece count : ℕ} {name : CString} {checksum : UInt8}

/-- The directory holds one entry of a long name. -/
def HoldsPiece (dirData : ℕ → UInt8) (i : ℕ) (name : CString) (checksum : UInt8)
    (count piece : ℕ) : Prop :=
  ∀ k < 32, dirData (32 * i + k) = lfnEntry name checksum count piece k

theorem getD_ascii (hchars : ∀ c ∈ name, c ≠ 0 ∧ c < 0x80) (k : ℕ) :
    name.getD k 0 < 0x80 := by
  by_cases hk : k < name.length
  · rw [List.getD_eq_getElem _ _ hk]
    exact (hchars _ (List.getElem_mem hk)).2
  · rw [List.getD_eq_default _ _ (by omega)]
    decide

/-- The word of one character. -/
theorem HoldsPiece.readU16 (hpiece : HoldsPiece dirData i name checksum count piece)
    (hchars : ∀ c ∈ name, c ≠ 0 ∧ c < 0x80) {k q : ℕ} (hk : k + 1 < 32)
    (hne : k ≠ 0 ∧ k ≠ 11 ∧ k ≠ 13 ∧ k + 1 ≠ 11 ∧ k + 1 ≠ 13)
    (hlow : lfnPosition k = some (2 * q))
    (hhigh : lfnPosition (k + 1) = some (2 * q + 1)) :
    ByteStore.readU16 dirData (32 * i + k) = (name.getD (13 * piece + q) 0).toNat := by
  have hfirst := hpiece k (by omega)
  have hsecond := hpiece (k + 1) hk
  rw [← Nat.add_assoc] at hsecond
  simp only [lfnEntry, if_neg hne.1, if_neg hne.2.1, if_neg hne.2.2.1, hlow,
    show 2 * q / 2 = q by omega, show 2 * q % 2 = 0 by omega, wordHalf, if_true]
    at hfirst
  simp only [lfnEntry, if_neg (Nat.succ_ne_zero k), if_neg hne.2.2.2.1,
    if_neg hne.2.2.2.2, hhigh, show (2 * q + 1) / 2 = q by omega,
    show (2 * q + 1) % 2 = 1 by omega, wordHalf, if_neg one_ne_zero,
    if_pos (getD_ascii hchars _)] at hsecond
  rw [ByteStore.readU16, hfirst, hsecond]
  simp

/-- An array of an entry that holds the characters from `first` on. -/
theorem lfnField_eq (hchars : ∀ c ∈ name, c ≠ 0 ∧ c < 0x80) {place words first : ℕ}
    (hplace : ∀ j < words, ByteStore.readU16 dirData (32 * i + place + 2 * j) =
      (name.getD (first + j) 0).toNat) :
    lfnField dirData i place words = (name.drop first).take words := by
  have hdrop : ∀ c ∈ name.drop first, c ≠ 0 ∧ c < 0x80 :=
    fun c hc => hchars c (List.mem_of_mem_drop hc)
  have hwords : (List.range words).map
        (fun j => ByteStore.readU16 dirData (32 * i + place + 2 * j)) =
      (List.range words).map fun j => ((name.drop first).getD j 0).toNat := by
    apply List.map_congr_left
    intro j hj
    rw [hplace j (List.mem_range.mp hj)]
    simp [List.getD_eq_getElem?_getD, List.getElem?_drop]
  rw [lfnField]
  simp only [hwords]
  exact takeWhile_words hdrop words

/-- The three arrays of an entry hold the characters of its piece. -/
theorem HoldsPiece.lfnChars (hpiece : HoldsPiece dirData i name checksum count piece)
    (hchars : ∀ c ∈ name, c ≠ 0 ∧ c < 0x80) :
    Fat32.lfnChars dirData i = (name.drop (13 * piece)).take 13 := by
  have hfield0 : lfnField dirData i 1 5 = (name.drop (13 * piece)).take 5 := by
    refine lfnField_eq hchars ?_
    intro j hj
    rw [Nat.add_assoc (32 * i)]
    refine hpiece.readU16 hchars (by omega) (by omega) ?_ ?_
    · rw [lfnPosition, if_pos (by omega)]
      exact congrArg some (by omega)
    · rw [lfnPosition, if_pos (by omega)]
      exact congrArg some (by omega)
  have hfield1 : lfnField dirData i 14 6 =
      (name.drop (13 * piece + 5)).take 6 := by
    refine lfnField_eq hchars ?_
    intro j hj
    rw [Nat.add_assoc (32 * i), Nat.add_assoc (13 * piece)]
    refine hpiece.readU16 hchars (by omega) (by omega) ?_ ?_
    · rw [lfnPosition, if_neg (by omega), if_pos (by omega)]
      exact congrArg some (by omega)
    · rw [lfnPosition, if_neg (by omega), if_pos (by omega)]
      exact congrArg some (by omega)
  have hfield2 : lfnField dirData i 28 2 =
      (name.drop (13 * piece + 11)).take 2 := by
    refine lfnField_eq hchars ?_
    intro j hj
    rw [Nat.add_assoc (32 * i), Nat.add_assoc (13 * piece)]
    refine hpiece.readU16 hchars (by omega) (by omega) ?_ ?_
    · rw [lfnPosition, if_neg (by omega), if_neg (by omega), if_pos (by omega)]
      exact congrArg some (by omega)
    · rw [lfnPosition, if_neg (by omega), if_neg (by omega), if_pos (by omega)]
      exact congrArg some (by omega)
  rw [Fat32.lfnChars, hfield0, hfield1, hfield2,
    show (13 : ℕ) = 5 + 6 + 2 by decide, List.take_add, List.take_add]
  simp only [List.drop_drop]

theorem HoldsPiece.flags (hpiece : HoldsPiece dirData i name checksum count piece) :
    (direntAt dirData i).flags = fat32LongFileName := by
  have hbyte := hpiece 11 (by decide)
  change (dirData (32 * i + 11)).toNat = 0xf
  rw [hbyte]
  rfl

theorem or_lastFlag {number : ℕ} (hnumber : number < 64) :
    (number ||| 0x40) % 256 = number + 64 := by
  interval_cases number <;> rfl

/-- The byte with the number of a piece. -/
theorem HoldsPiece.number (hpiece : HoldsPiece dirData i name checksum count piece)
    (hbound : piece < 63) :
    (direntAt dirData i).name0 ≠ 0 ∧
      (dirData (32 * i)).toNat % 64 = piece + 1 := by
  have hbyte := hpiece 0 (by decide)
  rw [Nat.add_zero] at hbyte
  have hvalue : (dirData (32 * i)).toNat =
      (if piece + 1 = count then (piece + 1) ||| 0x40 else piece + 1) % 256 := by
    rw [hbyte]
    simp only [lfnEntry, if_true, UInt8.toNat_ofNat']
  have hnumber : (dirData (32 * i)).toNat % 64 = piece + 1 := by
    rw [hvalue]
    split
    · rw [or_lastFlag (by omega)]
      omega
    · omega
  refine ⟨?_, hnumber⟩
  intro hzero
  change dirData (32 * i) = 0 at hzero
  rw [hzero] at hnumber
  simp at hnumber

/-- Where the characters of a piece go. -/
theorem HoldsPiece.lfnStart (hpiece : HoldsPiece dirData i name checksum count piece)
    (hbound : piece < 63) : Fat32.lfnStart dirData i = 13 * piece := by
  rw [Fat32.lfnStart, (hpiece.number hbound).2, lfnEntryCharCount]
  omega

end Piece

/-! ## The whole name -/

section Name

variable {dirData : ℕ → UInt8} {start : ℕ} {name : CString} {sfn stale : ℕ → UInt8}
  {flags : ℕ}

theorem HoldsLong.piece (hlong : HoldsLong dirData start name sfn stale flags)
    {left : ℕ} (hleft : left < lfnCount name) :
    HoldsPiece dirData (start + (lfnCount name - (left + 1))) name (lfnChecksum sfn)
      (lfnCount name) left := by
  intro k hk
  rw [hlong _ (by omega) k hk, newEntry, if_neg (by omega), Nat.add_sub_cancel,
    show lfnCount name + 1 - 2 - (lfnCount name - (left + 1)) = left by omega]

/-- The array once the pieces from `left` on are in it. -/
def suffixBytes (name : CString) (left : ℕ) : ℕ → UInt8 := fun k =>
  if 13 * left ≤ k then name.getD k 0 else 0

/-- One more piece. -/
theorem putChars_piece {left : ℕ} (hshort : name.length < 256) :
    putChars (suffixBytes name (left + 1)) (13 * left)
        ((name.drop (13 * left)).take 13) =
      some (suffixBytes name left) := by
  set chars := (name.drop (13 * left)).take 13 with hchars
  have hlength : chars.length = min 13 (name.length - 13 * left) := by
    rw [hchars, List.length_take, List.length_drop]
  have hinside : chars = [] ∨ 13 * left + chars.length ≤ 256 := by
    by_cases hempty : chars = []
    · exact .inl hempty
    · have hpos := List.length_pos_iff.mpr hempty
      right
      omega
  rw [putChars, if_pos hinside]
  refine congrArg some ?_
  funext k
  by_cases hin : 13 * left ≤ k ∧ k < 13 * left + chars.length
  · obtain ⟨j, rfl⟩ := Nat.exists_eq_add_of_le hin.1
    rw [store_inside (by omega), suffixBytes, if_pos (by omega), hchars]
    simp only [List.getD_eq_getElem?_getD, List.getElem?_take, List.getElem?_drop,
      if_pos (show j < 13 by omega)]
  · rw [store_outside (by omega), suffixBytes, suffixBytes]
    by_cases hlater : 13 * (left + 1) ≤ k
    · rw [if_pos hlater, if_pos (by omega)]
    · rw [if_neg hlater]
      split
      · -- behind the last piece the name has ended
        rw [List.getD_eq_default _ _ (by omega)]
      · rfl

/-- The loop puts the pieces together, last one first. -/
theorem buildLong_pieces (hlong : HoldsLong dirData start name sfn stale flags)
    (hchars : ∀ c ∈ name, c ≠ 0 ∧ c < 0x80) (hshort : name.length < 256)
    (hend : (direntAt dirData (start + lfnCount name)).flags &&& fat32LongFileName = 0)
    {left rounds : ℕ} (hleft : left ≤ lfnCount name) (hrounds : left < rounds) :
    buildLong dirData rounds (suffixBytes name left) (start + (lfnCount name - left)) =
      some (stringBytes name, start + lfnCount name) := by
  induction left generalizing rounds with
  | zero =>
      obtain ⟨rounds, rfl⟩ : ∃ more, rounds = more + 1 := ⟨rounds - 1, by omega⟩
      rw [Nat.sub_zero, buildLong, if_neg (fun h => h.1 hend)]
      refine congrArg some (Prod.ext ?_ rfl)
      funext k
      change suffixBytes name 0 k = stringBytes name k
      rw [suffixBytes, if_pos (by omega), stringBytes]
  | succ left ih =>
      obtain ⟨rounds, rfl⟩ : ∃ more, rounds = more + 1 := ⟨rounds - 1, by omega⟩
      have hpiece := hlong.piece hleft
      have hbound : left < 63 := by
        unfold lfnCount at hleft
        omega
      rw [buildLong, if_pos ⟨by rw [hpiece.flags]; decide, (hpiece.number hbound).1⟩,
        hpiece.lfnStart hbound, hpiece.lfnChars hchars, putChars_piece hshort]
      rw [Option.bind_eq_bind, Option.bind_some,
        show start + (lfnCount name - (left + 1)) + 1 =
          start + (lfnCount name - left) by omega]
      exact ih (by omega) (by omega)

/-- The name comes out of its entries. -/
theorem HoldsLong.build (hlong : HoldsLong dirData start name sfn stale flags)
    (hname : 1 ≤ name.length ∧ name.length ≤ 255) (hchars : ∀ c ∈ name, c ≠ 0 ∧ c < 0x80)
    (hend : (direntAt dirData (start + lfnCount name)).flags &&& 0xf = 0) :
    fat32BuildFilenameLong dirData (fun _ => 0) start =
      some (stringBytes name, start + lfnCount name) := by
  have hcount : 0 < lfnCount name := by
    unfold lfnCount
    omega
  have hfirst := hlong.piece (show lfnCount name - 1 < lfnCount name by omega)
  rw [show lfnCount name - (lfnCount name - 1 + 1) = 0 by omega, Nat.add_zero] at hfirst
  have hzero : (fun _ => 0 : ℕ → UInt8) = suffixBytes name (lfnCount name) := by
    funext k
    rw [suffixBytes]
    split
    · rename_i hlater
      unfold lfnCount at hlater
      rw [List.getD_eq_default _ _ (by omega)]
    · rfl
  have hbuild := buildLong_pieces hlong hchars (by omega) hend le_rfl
    (show lfnCount name < 2 ^ 27 by unfold lfnCount; omega)
  rw [Nat.sub_self, Nat.add_zero, ← hzero] at hbuild
  rw [fat32BuildFilenameLong, if_neg (not_not.mpr hfirst.flags)]
  exact hbuild

theorem spells_stringBytes (hlength : name.length ≤ 255) (hchars : ∀ c ∈ name, c ≠ 0) :
    Spells (stringBytes name) name := by
  refine ⟨by omega, hchars, ?_, ?_⟩
  · intro k c hk
    rw [stringBytes, List.getD_eq_getElem?_getD, hk]
    rfl
  · rw [stringBytes, List.getD_eq_default _ _ le_rfl]

/-- The codec of long names.  From the first entry of a long name that
`fat32_create` stored, in front of a short entry without one of the low four
attribute bits, the name comes out, and nothing is written outside the array. -/
theorem longName_roundTrip (dirData : ℕ → UInt8) (start : ℕ) (name : CString)
    (sfn stale : ℕ → UInt8) (flags : ℕ) (hname : 1 ≤ name.length ∧ name.length ≤ 255)
    (hchars : ∀ c ∈ name, c ≠ 0 ∧ c < 0x80)
    (hlong : HoldsLong dirData start name sfn stale flags)
    (hend : (direntAt dirData (start + lfnCount name)).flags &&& 0xf = 0) :
    fat32BuildFilenameLong dirData (fun _ => 0) start =
        some (stringBytes name, start + lfnCount name) ∧
      Spells (stringBytes name) name :=
  ⟨hlong.build hname hchars hend, spells_stringBytes hname.2 fun c hc => (hchars c hc).1⟩

/-- The entries of a name of 14 characters at the start of a directory. -/
def fourteenEntries : ℕ → UInt8 := fun k =>
  newEntry (List.replicate 14 0x61) (fun _ => 0x20) (fun _ => 0) 0x20 3 (k / 32) (k % 32)

theorem longName_roundTrip_fourteen :
    fat32BuildFilenameLong fourteenEntries (fun _ => 0) 0 =
        some (stringBytes (List.replicate 14 0x61), 2) ∧
      Spells (stringBytes (List.replicate 14 0x61)) (List.replicate 14 0x61) := by
  refine longName_roundTrip fourteenEntries 0 (List.replicate 14 0x61) (fun _ => 0x20)
    (fun _ => 0) 0x20 (by decide) ?_ ?_ (by decide)
  · intro c hc
    rw [List.eq_of_mem_replicate hc]
    decide
  · intro i hi k hk
    rw [fourteenEntries, Nat.zero_add, show (32 * i + k) / 32 = i by omega,
      show (32 * i + k) % 32 = k by omega]
    rfl

end Name

end KimisOS.Fat32
