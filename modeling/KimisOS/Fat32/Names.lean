import KimisOS.Fat32.Write

/-!
# Names in a directory

A directory is an array of entries of 32 bytes.  A long name is stored in the
entries in front of the short one, 13 characters each; a short name has eight
characters and an extension of three.  `fat32_search_dir` builds the name of
one entry after the other in an array of 256 bytes on the stack.
-/

namespace KimisOS.Fat32

open KimisOS.ByteStore

/-- A string without its terminator. -/
abbrev CString := List UInt8

def slash : UInt8 := 0x2f

/-- The fields of `fat_dirent_t` that an open reads; `name0` is the first byte
of the name. -/
structure Dirent where
  name0 : UInt8
  flags : ℕ
  cluster : ℕ
  size : ℕ
  deriving DecidableEq

/-- Entry `i` of a buffer of entries. -/
def direntAt (dirData : ℕ → UInt8) (i : ℕ) : Dirent where
  name0 := dirData (32 * i)
  flags := (dirData (32 * i + 11)).toNat
  cluster := readU16 dirData (32 * i + 20) * 65536 + readU16 dirData (32 * i + 26)
  size := readU32 dirData (32 * i + 28)

/-! ## Long names -/

def fat32LongFileName : ℕ := 0xf

def lfnEntryCharCount : ℕ := 13

/-- One of the three arrays of an entry of a long name, up to a word that ends
it; of each word the name gets the low byte. -/
def lfnField (dirData : ℕ → UInt8) (i place count : ℕ) : CString :=
  let words := (List.range count).map fun j => readU16 dirData (32 * i + place + 2 * j)
  (words.takeWhile fun word => decide (word ≠ 0xffff ∧ word ≠ 0)).map UInt8.ofNat

/-- What the three loops of one round store one behind the other. -/
def lfnChars (dirData : ℕ → UInt8) (i : ℕ) : CString :=
  lfnField dirData i 1 5 ++ lfnField dirData i 14 6 ++ lfnField dirData i 28 2

/-- `filename_index_start`, computed in 32 bits. -/
def lfnStart (dirData : ℕ → UInt8) (i : ℕ) : ℕ :=
  ((dirData (32 * i)).toNat % 64 + 2 ^ 32 - 1) % 2 ^ 32 * lfnEntryCharCount % 2 ^ 32

/-- Characters stored in the array; `none` when one of them lies behind it. -/
def putChars (filename : ℕ → UInt8) (start : ℕ) (chars : CString) :
    Option (ℕ → UInt8) :=
  if chars = [] ∨ start + chars.length ≤ 256 then
    some (store filename start (fun k => chars.getD k 0) chars.length)
  else none

/-- The loop of `fat32_build_filename_long`; it ends within the 4 GiB of the
address space or leaves it. -/
def buildLong (dirData : ℕ → UInt8) :
    ℕ → (ℕ → UInt8) → ℕ → Option ((ℕ → UInt8) × ℕ)
  | 0, _, _ => none
  | rounds + 1, filename, index =>
      if (direntAt dirData index).flags &&& fat32LongFileName ≠ 0 ∧
          (direntAt dirData index).name0 ≠ 0 then do
        let filename ← putChars filename (lfnStart dirData index)
          (lfnChars dirData index)
        buildLong dirData rounds filename (index + 1)
      else some (filename, index)

def fat32BuildFilenameLong (dirData : ℕ → UInt8) (filename : ℕ → UInt8)
    (startIndex : ℕ) : Option ((ℕ → UInt8) × ℕ) :=
  if (direntAt dirData startIndex).flags ≠ fat32LongFileName then
    some (filename, startIndex)
  else buildLong dirData (2 ^ 27) filename startIndex

/-! ## Short names -/

/-- A space or a zero, which the name is not meant to end with. -/
def isBlank (c : UInt8) : Bool := c == 0x20 || c == 0

/-- The eight characters of entry `i`, with the zeros that follow them in the
array. -/
def baseChar (dirData : ℕ → UInt8) (i j : ℕ) : UInt8 :=
  if j < 8 then dirData (32 * i + j) else 0

/-- The loop that walks back over blanks. -/
def lastChar (dirData : ℕ → UInt8) (i : ℕ) : ℕ → ℕ
  | 0 => 0
  | j + 1 => if isBlank (baseChar dirData i (j + 1)) then lastChar dirData i j else j + 1

/-- `fat32_copy_short_filename`: the base up to its last character, a dot when
there is an extension, and the extension. -/
def fat32CopyShortFilename (dirData : ℕ → UInt8) (i : ℕ) : ℕ → UInt8 := fun k =>
  let last := lastChar dirData i 8
  if k ≤ last then baseChar dirData i k
  else if k = last + 1 then (if dirData (32 * i + 8) ≠ 0 then 0x2e else 0)
  else if k ≤ last + 4 then dirData (32 * i + 8 + (k - (last + 2)))
  else 0

/-! ## The search -/

/-- `strcmp` of a string and the array, `none` when it reads behind the
array. -/
def equalsName (filename : ℕ → UInt8) : CString → ℕ → Option Bool
  | [], i => if i < 256 then some (filename i == 0) else none
  | c :: path, i =>
      if i < 256 then
        if c = filename i then equalsName filename path (i + 1) else some false
      else none

/-- The name that the round of the search which starts at entry `i` compares
with, and the entry it would return. -/
def nameAt (dirData : ℕ → UInt8) (i : ℕ) : Option ((ℕ → UInt8) × ℕ) :=
  if (direntAt dirData i).flags = fat32LongFileName then
    fat32BuildFilenameLong dirData (fun _ => 0) i
  else some (fat32CopyShortFilename dirData i, i)

/-- The loop of `fat32_search_dir` from entry `i` on; `i` grows in every round,
and 65536 ends the loop. -/
def searchFrom (path : CString) (dirData : ℕ → UInt8) : ℕ → ℕ → Option (Option ℕ)
  | 0, _ => some none
  | rounds + 1, i =>
      if (direntAt dirData i).name0 ≠ 0 ∧ i < 65536 then
        match nameAt dirData i with
        | none => none
        | some (filename, entry) =>
            match equalsName filename path 0 with
            | none => none
            | some true => some (some entry)
            | some false => searchFrom path dirData rounds (entry + 1)
      else some none

/-- `fat32_search_dir`: the index of the entry with a name, if there is one. -/
def fat32SearchDir (path : CString) (dirData : ℕ → UInt8) : Option (Option ℕ) :=
  searchFrom path dirData 65536 0

/-! ## The bytes that a name is made of -/

section Bytes

variable {dirData dirData' : ℕ → UInt8} {i : ℕ}

theorem direntAt_congr (hsame : ∀ k < 32, dirData' (32 * i + k) = dirData (32 * i + k)) :
    direntAt dirData' i = direntAt dirData i := by
  have hat : ∀ place, place + 2 ≤ 32 →
      readU16 dirData' (32 * i + place) = readU16 dirData (32 * i + place) := by
    intro place hplace
    apply readU16_congr
    intro k hk
    rw [Nat.add_assoc]
    exact hsame _ (by omega)
  have hsize : readU32 dirData' (32 * i + 28) = readU32 dirData (32 * i + 28) := by
    apply readU32_congr
    intro k hk
    rw [Nat.add_assoc]
    exact hsame _ (by omega)
  have hfirst := hsame 0 (by decide)
  rw [Nat.add_zero] at hfirst
  rw [direntAt, direntAt, hfirst, hsame 11 (by decide), hat 20 (by decide),
    hat 26 (by decide), hsize]

theorem lfnField_congr {place words : ℕ}
    (hsame : ∀ k < 2 * words, dirData' (32 * i + place + k) = dirData (32 * i + place + k)) :
    lfnField dirData' i place words = lfnField dirData i place words := by
  have hwords : (List.range words).map
        (fun j => readU16 dirData' (32 * i + place + 2 * j)) =
      (List.range words).map fun j => readU16 dirData (32 * i + place + 2 * j) := by
    apply List.map_congr_left
    intro j hj
    have hlt := List.mem_range.mp hj
    apply readU16_congr
    intro k hk
    rw [Nat.add_assoc _ (2 * j) k]
    exact hsame _ (by omega)
  rw [lfnField, lfnField]
  simp only [hwords]

/-- A piece of a long name does not depend on the attributes of its entry. -/
theorem lfnChars_congr
    (hsame : ∀ k < 32, k ≠ 11 → dirData' (32 * i + k) = dirData (32 * i + k)) :
    lfnChars dirData' i = lfnChars dirData i := by
  have hfield : ∀ place words, 11 < place ∨ place + 2 * words ≤ 11 →
      place + 2 * words ≤ 32 →
        lfnField dirData' i place words = lfnField dirData i place words := by
    intro place words hplace hend
    apply lfnField_congr
    intro k hk
    rw [Nat.add_assoc]
    exact hsame _ (by omega) (by omega)
  rw [lfnChars, lfnChars, hfield 1 5 (by omega) (by omega), hfield 14 6 (by omega) (by omega),
    hfield 28 2 (by omega) (by omega)]

theorem lfnStart_congr
    (hsame : ∀ k < 32, k ≠ 11 → dirData' (32 * i + k) = dirData (32 * i + k)) :
    lfnStart dirData' i = lfnStart dirData i := by
  have hfirst := hsame 0 (by decide) (by decide)
  rw [Nat.add_zero] at hfirst
  rw [lfnStart, lfnStart, hfirst]

/-- A short name is made of the first eleven bytes. -/
theorem shortName_congr (hsame : ∀ k < 11, dirData' (32 * i + k) = dirData (32 * i + k)) :
    fat32CopyShortFilename dirData' i = fat32CopyShortFilename dirData i := by
  have hbase : ∀ j, baseChar dirData' i j = baseChar dirData i j := by
    intro j
    rw [baseChar, baseChar]
    split
    · exact hsame j (by omega)
    · rfl
  have hlast : ∀ j, lastChar dirData' i j = lastChar dirData i j := by
    intro j
    induction j with
    | zero => rfl
    | succ j ih => rw [lastChar, lastChar, hbase, ih]
  funext k
  rw [fat32CopyShortFilename, fat32CopyShortFilename, hlast, hbase, hsame 8 (by decide)]
  split
  · rfl
  · split
    · rfl
    · split
      · rw [Nat.add_assoc, hsame _ (by omega)]
      · rfl

end Bytes

/-! ## What an entry is called -/

/-- The array holds a string with its terminator. -/
structure Spells (filename : ℕ → UInt8) (name : CString) : Prop where
  short : name.length < 256
  nonzero : ∀ c ∈ name, c ≠ 0
  chars : ∀ k c, name[k]? = some c → filename k = c
  terminator : filename name.length = 0

/-- `strcmp` finds out whether the strings are equal. -/
theorem Spells.equalsName {filename : ℕ → UInt8} {name path : CString}
    (hspells : Spells filename name) (hpath : ∀ c ∈ path, c ≠ 0) :
    Fat32.equalsName filename path 0 = some (decide (path = name)) := by
  have hshort := hspells.short
  have hsuffix : ∀ i ≤ name.length,
      Fat32.equalsName filename path i = some (decide (path = name.drop i)) := by
    induction path with
    | nil =>
        intro i hi
        rw [Fat32.equalsName, if_pos (by omega)]
        rcases Nat.lt_or_eq_of_le hi with hlt | rfl
        · have hchar := hspells.chars i _ (List.getElem?_eq_getElem hlt)
          have hne : filename i ≠ 0 := by
            rw [hchar]
            exact hspells.nonzero _ (List.getElem_mem hlt)
          have hrest : ([] : CString) ≠ name.drop i := by
            rw [List.drop_eq_getElem_cons hlt]
            exact (List.cons_ne_nil _ _).symm
          rw [decide_eq_false hrest, beq_eq_false_iff_ne.mpr hne]
        · simp [hspells.terminator]
    | cons c path ih =>
        intro i hi
        have hrest : ∀ d ∈ path, d ≠ 0 := fun d hd => hpath d (List.mem_cons_of_mem c hd)
        rw [Fat32.equalsName, if_pos (by omega)]
        rcases Nat.lt_or_eq_of_le hi with hlt | rfl
        · have hchar := hspells.chars i _ (List.getElem?_eq_getElem hlt)
          have hcons : c :: path = name.drop i ↔
              c = name[i] ∧ path = name.drop (i + 1) := by
            rw [List.drop_eq_getElem_cons hlt, List.cons.injEq]
          rw [hchar]
          by_cases hsame : c = name[i]
          · rw [if_pos hsame, ih hrest (i + 1) hlt]
            exact congrArg some (decide_eq_decide.mpr
              ⟨fun htail => hcons.mpr ⟨hsame, htail⟩, fun hwhole => (hcons.mp hwhole).2⟩)
          · rw [if_neg hsame, decide_eq_false fun hwhole => hsame (hcons.mp hwhole).1]
        · have hne : c ≠ filename name.length := by
            rw [hspells.terminator]
            exact hpath c List.mem_cons_self
          rw [if_neg hne]
          simp
  have hall := hsuffix 0 (Nat.zero_le _)
  rwa [List.drop_zero] at hall

/-- An entry with a base and an extension that are filled up with zeros. -/
structure ShortEntry (dirData : ℕ → UInt8) (i : ℕ) (base ext : CString) : Prop where
  baseLength : 1 ≤ base.length ∧ base.length ≤ 8
  extLength : 1 ≤ ext.length ∧ ext.length ≤ 3
  baseChars : ∀ c ∈ base, c ≠ 0 ∧ c ≠ 0x20
  extChars : ∀ c ∈ ext, c ≠ 0
  baseBytes : ∀ j < 8, dirData (32 * i + j) = base.getD j 0
  extBytes : ∀ j < 3, dirData (32 * i + 8 + j) = ext.getD j 0
  flags : (direntAt dirData i).flags ≠ fat32LongFileName

section ShortEntry

variable {dirData : ℕ → UInt8} {i : ℕ} {base ext : CString}

theorem ShortEntry.baseChar_eq (hentry : ShortEntry dirData i base ext) {j : ℕ}
    (hj : j ≤ 8) : baseChar dirData i j = base.getD j 0 := by
  have hlength := hentry.baseLength
  rw [baseChar]
  split
  · exact hentry.baseBytes j (by omega)
  · rw [List.getD_eq_default _ _ (by omega)]

theorem ShortEntry.lastChar_eq (hentry : ShortEntry dirData i base ext) {j : ℕ}
    (hlow : base.length ≤ j + 1) (hhigh : j ≤ 8) :
    lastChar dirData i j = base.length - 1 := by
  have hlength := hentry.baseLength
  induction j with
  | zero =>
      rw [lastChar]
      omega
  | succ j ih =>
      rw [lastChar, hentry.baseChar_eq hhigh]
      by_cases hend : base.length ≤ j + 1
      · rw [List.getD_eq_default _ _ hend, if_pos (by decide)]
        exact ih hend (by omega)
      · have hlt : j + 1 < base.length := by omega
        have hchar := hentry.baseChars _ (List.getElem_mem hlt)
        rw [List.getD_eq_getElem _ _ hlt, if_neg (by simp [isBlank, hchar.1, hchar.2])]
        omega

/-- The short name is built as it was taken apart. -/
theorem ShortEntry.spells (hentry : ShortEntry dirData i base ext) :
    Spells (fat32CopyShortFilename dirData i) (base ++ 0x2e :: ext) := by
  have hbase := hentry.baseLength
  have hext := hentry.extLength
  have hlast := hentry.lastChar_eq (show base.length ≤ 8 + 1 by omega) le_rfl
  have hdot : dirData (32 * i + 8) ≠ 0 := by
    have hbyte := hentry.extBytes 0 (by decide)
    rw [Nat.add_zero, List.getD_eq_getElem _ _ (by omega)] at hbyte
    rw [hbyte]
    exact hentry.extChars _ (List.getElem_mem _)
  constructor
  · simp only [List.length_append, List.length_cons]
    omega
  · intro c hc
    rcases List.mem_append.mp hc with hmem | hmem
    · exact (hentry.baseChars c hmem).1
    · rcases List.mem_cons.mp hmem with rfl | hmem
      · decide
      · exact hentry.extChars c hmem
  · intro k c hk
    simp only [fat32CopyShortFilename, hlast]
    by_cases hlow : k < base.length
    · rw [List.getElem?_append_left hlow] at hk
      rw [if_pos (by omega), hentry.baseChar_eq (by omega), List.getD_eq_getElem?_getD, hk]
      rfl
    · rw [List.getElem?_append_right (by omega)] at hk
      rw [if_neg (by omega)]
      by_cases hmid : k = base.length
      · rw [hmid, Nat.sub_self, List.getElem?_cons_zero] at hk
        rw [if_pos (by omega), if_pos hdot]
        exact Option.some.inj hk
      · obtain ⟨j, rfl⟩ := Nat.exists_eq_add_of_le (show base.length + 1 ≤ k by omega)
        rw [show base.length + 1 + j - base.length = j + 1 by omega,
          List.getElem?_cons_succ] at hk
        have hj := (List.getElem?_eq_some_iff.mp hk).1
        rw [if_neg (by omega), if_pos (by omega),
          show base.length + 1 + j - (base.length - 1 + 2) = j by omega,
          hentry.extBytes j (by omega), List.getD_eq_getElem?_getD, hk]
        rfl
  · simp only [fat32CopyShortFilename, hlast, List.length_append, List.length_cons]
    rw [if_neg (by omega), if_neg (by omega)]
    split
    · rw [show base.length + (ext.length + 1) - (base.length - 1 + 2) = ext.length by omega,
        hentry.extBytes ext.length (by omega), List.getD_eq_default _ _ le_rfl]
    · rfl

theorem ShortEntry.name0_ne (hentry : ShortEntry dirData i base ext) :
    (direntAt dirData i).name0 ≠ 0 := by
  have hlength := hentry.baseLength
  have hbyte := hentry.baseBytes 0 (by decide)
  rw [Nat.add_zero, List.getD_eq_getElem _ _ (by omega)] at hbyte
  change dirData (32 * i) ≠ 0
  rw [hbyte]
  exact (hentry.baseChars _ (List.getElem_mem _)).1

end ShortEntry

/-! ## Directories of short names -/

theorem searchFrom_short {path : CString} {dirData : ℕ → UInt8} {rounds i j : ℕ}
    {base ext : ℕ → CString} (hpath : ∀ c ∈ path, c ≠ 0)
    (hentries : ∀ k ≤ j, ShortEntry dirData k (base k) (ext k))
    (hothers : ∀ k < j, path ≠ base k ++ 0x2e :: ext k)
    (hname : path = base j ++ 0x2e :: ext j) (hi : i ≤ j) (hj : j < 65536)
    (hrounds : j < i + rounds) :
    searchFrom path dirData rounds i = some (some j) := by
  induction rounds generalizing i with
  | zero => omega
  | succ rounds ih =>
      have hentry := hentries i hi
      rw [searchFrom, if_pos ⟨hentry.name0_ne, by omega⟩, nameAt, if_neg hentry.flags]
      dsimp only
      rw [hentry.spells.equalsName hpath]
      rcases Nat.lt_or_eq_of_le hi with hlt | rfl
      · rw [decide_eq_false (hothers i hlt)]
        exact ih hlt (by omega)
      · rw [decide_eq_true hname]

/-- Every name of a directory of short names is found where it is. -/
theorem search_short {path : CString} {dirData : ℕ → UInt8} {j : ℕ}
    {base ext : ℕ → CString} (hpath : ∀ c ∈ path, c ≠ 0)
    (hentries : ∀ k ≤ j, ShortEntry dirData k (base k) (ext k))
    (hothers : ∀ k < j, path ≠ base k ++ 0x2e :: ext k)
    (hname : path = base j ++ 0x2e :: ext j) (hj : j < 65536) :
    fat32SearchDir path dirData = some (some j) :=
  searchFrom_short hpath hentries hothers hname (Nat.zero_le j) hj (by omega)

end KimisOS.Fat32
