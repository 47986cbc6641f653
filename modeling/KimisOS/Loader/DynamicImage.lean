import KimisOS.Core.ByteStore

/-!
# Images of modules

`load_elf_dynamic` takes the highest end of all program headers as the size of a
block, and clears and fills each segment of a shared object in it, in the order of
the headers.
-/

namespace KimisOS.DynamicImage

open KimisOS.ByteStore

/-- The memory of the kernel, by virtual addresses. -/
abbrev Memory := ℕ → UInt8

/-- `ptr[i]` for elements of `size` bytes, in 32-bit arithmetic. -/
def element (ptr size i : ℕ) : ℕ := (ptr + size * i) % 2 ^ 32

def unsignedMax (i1 i2 : ℕ) : ℕ := if i1 > i2 then i1 else i2

/-! ## `memclr` -/

def clearWords (mem : Memory) (ptr : ℕ) : ℕ → Memory
  | 0 => mem
  | i + 1 => writeU32 (clearWords mem ptr i) (element ptr 4 i) 0

def clearBytes (mem : Memory) (ptr : ℕ) : ℕ → Memory
  | 0 => mem
  | i + 1 => Function.update (clearBytes mem ptr i) (element ptr 1 i) 0

def memclr (mem : Memory) (ptr count : ℕ) : Memory :=
  if count % 4 = 0 then clearWords mem ptr (count / 4) else clearBytes mem ptr count

/-! ## Segments -/

def elfTypeShared : ℕ := 3
def elfTypeCore : ℕ := 4

/-- The fields of `elf_header_t` that the loader reads. -/
def magic (mem : Memory) (fileData : ℕ) : ℕ := readU32 mem fileData
def elfType (mem : Memory) (fileData : ℕ) : ℕ := readU16 mem (fileData + 16)
def entryOffset (mem : Memory) (fileData : ℕ) : ℕ := readU32 mem (fileData + 24)
def programHeaderOffset (mem : Memory) (fileData : ℕ) : ℕ := readU32 mem (fileData + 28)
def programEntryCount (mem : Memory) (fileData : ℕ) : ℕ := readU16 mem (fileData + 44)

/-- The fields of `program_entry_t` that the loader reads. -/
structure ProgramEntry where
  type : ℕ
  dataOffset : ℕ
  vaddr : ℕ
  fsize : ℕ
  msize : ℕ
  deriving DecidableEq

/-- `program_header[i]`. -/
def programEntry (mem : Memory) (programHeader i : ℕ) : ProgramEntry where
  type := readU32 mem (element programHeader 32 i)
  dataOffset := readU32 mem (element programHeader 32 i + 4)
  vaddr := readU32 mem (element programHeader 32 i + 8)
  fsize := readU32 mem (element programHeader 32 i + 16)
  msize := readU32 mem (element programHeader 32 i + 20)

/-- The loop that copies the data of a segment. -/
def copyData (mem : Memory) (segment fileData dataOffset : ℕ) : ℕ → Memory
  | 0 => mem
  | i + 1 =>
      let copied := copyData mem segment fileData dataOffset i
      Function.update copied (element segment 1 i)
        (copied (element fileData 1 ((i + dataOffset) % 2 ^ 32)))

/-- The memory and the base, which is returned as it came. -/
def loadSegmentDynamic (mem : Memory) (entry : ProgramEntry)
    (fileData baseSegment : ℕ) : Memory × ℕ :=
  if entry.type = 1 then
    if elfType mem fileData = elfTypeShared then
      let segment := (baseSegment + entry.vaddr) % 2 ^ 32
      let cleared := memclr mem segment entry.msize
      (copyData cleared segment fileData entry.dataOffset entry.fsize, baseSegment)
    else (mem, baseSegment)
  else (mem, baseSegment)

/-- The loop over the program headers. -/
def loadSegments (mem : Memory) (programHeader fileData baseSegment : ℕ) :
    ℕ → Memory × ℕ
  | 0 => (mem, baseSegment)
  | i + 1 =>
      let (loaded, base) := loadSegments mem programHeader fileData baseSegment i
      loadSegmentDynamic loaded (programEntry loaded programHeader i) fileData base

/-- The highest end of the first headers. -/
def imageLimit (mem : Memory) (programHeader : ℕ) : ℕ → ℕ
  | 0 => 0
  | i + 1 =>
      let entry := programEntry mem programHeader i
      unsignedMax (imageLimit mem programHeader i) ((entry.vaddr + entry.msize) % 2 ^ 32)

/-- `size_pages`. -/
def imagePages (mem : Memory) (fileData : ℕ) : ℕ :=
  let programHeader := (fileData + programHeaderOffset mem fileData) % 2 ^ 32
  (imageLimit mem programHeader (programEntryCount mem fileData) + 4096 - 1) % 2 ^ 32 / 4096

/-- `kmalloc` takes a number of pages and returns the memory behind it and the
block. -/
def loadElfDynamic (kmalloc : Memory → ℕ → Memory × ℕ) (mem : Memory) (fileData : ℕ) :
    Memory × ℕ :=
  if magic mem fileData ≠ 0x464c457f ∨ elfType mem fileData = elfTypeCore then (mem, 0)
  else
    let programHeader := (fileData + programHeaderOffset mem fileData) % 2 ^ 32
    let count := programEntryCount mem fileData
    let (allocated, block) := kmalloc mem (imagePages mem fileData)
    let (loaded, base) := loadSegments allocated programHeader fileData block count
    (loaded, (base + entryOffset loaded fileData) % 2 ^ 32)

/-! ## One segment -/

section Clear

variable {mem : Memory} {ptr : ℕ}

theorem element_eq {size i : ℕ} (hspace : ptr + size * i < 2 ^ 32) :
    element ptr size i = ptr + size * i :=
  Nat.mod_eq_of_lt hspace

theorem update_eq_store (byte : UInt8) :
    Function.update mem ptr byte = store mem ptr (fun _ => byte) 1 := by
  funext a
  by_cases ha : a = ptr
  · subst ha
    have hfirst : store mem a (fun _ => byte) 1 (a + 0) = byte := store_inside (by decide)
    rw [Function.update_self]
    exact hfirst.symm
  · rw [Function.update_of_ne ha, store_outside (by omega)]

theorem clearWords_eq {count : ℕ} (hspace : ptr + 4 * count ≤ 2 ^ 32) :
    clearWords mem ptr count = store mem ptr (fun _ => 0) (4 * count) := by
  induction count with
  | zero => exact (store_zero _ _ _).symm
  | succ i ih =>
      have hzeros : (fun k => UInt8.ofNat (0 / 256 ^ k)) = load (fun _ => 0) (4 * i) := by
        funext k
        rw [Nat.zero_div, load]
        rfl
      rw [clearWords, ih (by omega), element_eq (by omega), writeU32, hzeros, store_append,
        Nat.mul_succ]

theorem clearBytes_eq {count : ℕ} (hspace : ptr + count ≤ 2 ^ 32) :
    clearBytes mem ptr count = store mem ptr (fun _ => 0) count := by
  induction count with
  | zero => exact (store_zero _ _ _).symm
  | succ i ih =>
      rw [clearBytes, ih (by omega), element_eq (by omega), Nat.one_mul, update_eq_store]
      exact store_append _ _

/-- By words or by bytes, the same bytes are cleared. -/
theorem memclr_eq {count : ℕ} (hspace : ptr + count ≤ 2 ^ 32) :
    memclr mem ptr count = store mem ptr (fun _ => 0) count := by
  rw [memclr]
  split
  case isTrue hwords =>
    have hcount : 4 * (count / 4) = count := by omega
    rw [clearWords_eq (by rwa [hcount]), hcount]
  case isFalse => exact clearBytes_eq hspace

end Clear

section Copy

variable {mem : Memory} {segment fileData dataOffset count : ℕ}

theorem copyData_outside (hspace : segment + count ≤ 2 ^ 32) {a : ℕ}
    (ha : a < segment ∨ segment + count ≤ a) :
    copyData mem segment fileData dataOffset count a = mem a := by
  induction count with
  | zero => rfl
  | succ i ih =>
      have helement : element segment 1 i = segment + i := by
        rw [element_eq (by omega), Nat.one_mul]
      rw [copyData, Function.update_of_ne (by omega), ih (by omega) (by omega)]

/-- A byte whose source lies outside the segment. -/
theorem copyData_inside (hspace : segment + count ≤ 2 ^ 32) {k source : ℕ} (hk : k < count)
    (hsource : element fileData 1 ((k + dataOffset) % 2 ^ 32) = source)
    (houtside : source < segment ∨ segment + count ≤ source) :
    copyData mem segment fileData dataOffset count (segment + k) = mem source := by
  induction count with
  | zero => omega
  | succ i ih =>
      have helement : element segment 1 i = segment + i := by
        rw [element_eq (by omega), Nat.one_mul]
      rw [copyData, helement]
      obtain hlast | hearlier := Nat.lt_succ_iff_lt_or_eq.mp hk |>.symm
      · subst hlast
        rw [Function.update_self, hsource, copyData_outside (by omega) (by omega)]
      · rw [Function.update_of_ne (by omega)]
        exact ih (by omega) hearlier (by omega)

end Copy

/-! ## The file -/

/-- A file of `size` bytes at an address. -/
structure FileAt (mem : Memory) (fileData size : ℕ) (file : ℕ → UInt8) : Prop where
  bytes : ∀ k < size, mem (fileData + k) = file k
  inSpace : fileData + size ≤ 2 ^ 32

/-- A program header of the file. -/
def fileEntry (file : ℕ → UInt8) (i : ℕ) : ProgramEntry :=
  programEntry file (programHeaderOffset file 0) i

/-- An address of the image that a segment takes. -/
def ProgramEntry.Covers (entry : ProgramEntry) (a : ℕ) : Prop :=
  entry.type = 1 ∧ entry.vaddr ≤ a ∧ a < entry.vaddr + entry.msize

/-- A shared object whose segments do not overlap. -/
structure SharedObject (file : ℕ → UInt8) (size : ℕ) : Prop where
  whole : 52 ≤ size
  magic : magic file 0 = 0x464c457f
  shared : elfType file 0 = elfTypeShared
  headers : programHeaderOffset file 0 + 32 * programEntryCount file 0 ≤ size
  fits : ∀ i < programEntryCount file 0, (fileEntry file i).fsize ≤ (fileEntry file i).msize
  low : ∀ i < programEntryCount file 0,
    (fileEntry file i).vaddr + (fileEntry file i).msize < 2 ^ 32 - 4096
  apart : ∀ i < programEntryCount file 0, ∀ j < programEntryCount file 0, i ≠ j →
    ∀ a, (fileEntry file i).Covers a → ¬ (fileEntry file j).Covers a

/-- The bytes of a segment are those of the file, and zeros behind them. -/
structure Placed (mem : Memory) (base : ℕ) (file : ℕ → UInt8) (size : ℕ)
    (entry : ProgramEntry) : Prop where
  data : ∀ k < entry.fsize, entry.dataOffset + k < size →
    mem (base + entry.vaddr + k) = file (entry.dataOffset + k)
  zeros : ∀ k < entry.msize, entry.fsize ≤ k → mem (base + entry.vaddr + k) = 0

section Segment

variable {mem : Memory} {fileData size base : ℕ} {file : ℕ → UInt8} {entry : ProgramEntry}

theorem FileAt.readU32 (hfile : FileAt mem fileData size file) {place : ℕ}
    (hplace : place + 4 ≤ size) :
    ByteStore.readU32 mem (fileData + place) = ByteStore.readU32 file place := by
  apply readU32_congr
  intro k hk
  rw [Nat.add_assoc]
  exact hfile.bytes _ (by omega)

theorem FileAt.readU16 (hfile : FileAt mem fileData size file) {place : ℕ}
    (hplace : place + 2 ≤ size) :
    ByteStore.readU16 mem (fileData + place) = ByteStore.readU16 file place := by
  apply readU16_congr
  intro k hk
  rw [Nat.add_assoc]
  exact hfile.bytes _ (by omega)

/-- A file elsewhere is not changed. -/
theorem FileAt.frame {mem' : Memory} (hfile : FileAt mem fileData size file)
    (hsame : ∀ a, fileData ≤ a → a < fileData + size → mem' a = mem a) :
    FileAt mem' fileData size file where
  bytes k hk := by rw [hsame _ (by omega) (by omega), hfile.bytes k hk]
  inSpace := hfile.inSpace

theorem FileAt.programEntry (hfile : FileAt mem fileData size file)
    (hobject : SharedObject file size) {i : ℕ} (hi : i < programEntryCount file 0) :
    DynamicImage.programEntry mem ((fileData + programHeaderOffset file 0) % 2 ^ 32) i =
      fileEntry file i := by
  have hheaders := hobject.headers
  have hspace := hfile.inSpace
  have hplace : element (programHeaderOffset file 0) 32 i =
      programHeaderOffset file 0 + 32 * i := element_eq (by omega)
  have haddress : element ((fileData + programHeaderOffset file 0) % 2 ^ 32) 32 i =
      fileData + (programHeaderOffset file 0 + 32 * i) := by
    rw [element, Nat.mod_add_mod, Nat.mod_eq_of_lt (by omega), Nat.add_assoc]
  have hword : ∀ field, field + 4 ≤ 32 →
      ByteStore.readU32 mem (fileData + (programHeaderOffset file 0 + 32 * i) + field) =
        ByteStore.readU32 file (programHeaderOffset file 0 + 32 * i + field) := by
    intro field hfield
    rw [Nat.add_assoc]
    exact hfile.readU32 (by omega)
  have htype : ByteStore.readU32 mem (fileData + (programHeaderOffset file 0 + 32 * i)) =
      ByteStore.readU32 file (programHeaderOffset file 0 + 32 * i) := hword 0 (by decide)
  rw [fileEntry, DynamicImage.programEntry, DynamicImage.programEntry, hplace, haddress, htype,
    hword 4 (by decide), hword 8 (by decide), hword 16 (by decide), hword 20 (by decide)]

theorem FileAt.elfType (hfile : FileAt mem fileData size file) (hwhole : 52 ≤ size) :
    DynamicImage.elfType mem fileData = DynamicImage.elfType file 0 := by
  have htype := hfile.readU16 (show 16 + 2 ≤ size by omega)
  rwa [← Nat.zero_add 16] at htype

theorem FileAt.entryOffset (hfile : FileAt mem fileData size file) (hwhole : 52 ≤ size) :
    DynamicImage.entryOffset mem fileData = DynamicImage.entryOffset file 0 := by
  have hword := hfile.readU32 (show 24 + 4 ≤ size by omega)
  rwa [← Nat.zero_add 24] at hword

theorem FileAt.programHeaderOffset (hfile : FileAt mem fileData size file)
    (hwhole : 52 ≤ size) :
    DynamicImage.programHeaderOffset mem fileData =
      DynamicImage.programHeaderOffset file 0 := by
  have hword := hfile.readU32 (show 28 + 4 ≤ size by omega)
  rwa [← Nat.zero_add 28] at hword

theorem FileAt.programEntryCount (hfile : FileAt mem fileData size file)
    (hwhole : 52 ≤ size) :
    DynamicImage.programEntryCount mem fileData = DynamicImage.programEntryCount file 0 := by
  have hcount := hfile.readU16 (show 44 + 2 ≤ size by omega)
  rwa [← Nat.zero_add 44] at hcount

/-- The two loops of one segment. -/
def fillSegment (mem : Memory) (entry : ProgramEntry) (fileData baseSegment : ℕ) : Memory :=
  copyData (memclr mem ((baseSegment + entry.vaddr) % 2 ^ 32) entry.msize)
    ((baseSegment + entry.vaddr) % 2 ^ 32) fileData entry.dataOffset entry.fsize

/-- An empty segment may lie behind the last address. -/
theorem fillSegment_eq (hfits : entry.fsize ≤ entry.msize)
    (hspace : base + entry.vaddr + entry.msize ≤ 2 ^ 32) :
    fillSegment mem entry fileData base =
      copyData (store mem (base + entry.vaddr) (fun _ => 0) entry.msize)
        (base + entry.vaddr) fileData entry.dataOffset entry.fsize := by
  obtain hempty | hsome := Nat.eq_zero_or_pos entry.msize
  · have hnone : entry.fsize = 0 := by omega
    rw [fillSegment, hempty, hnone, store_zero]
    rfl
  · rw [fillSegment, Nat.mod_eq_of_lt (by omega), memclr_eq hspace]

theorem fillSegment_outside (hfits : entry.fsize ≤ entry.msize)
    (hspace : base + entry.vaddr + entry.msize ≤ 2 ^ 32) {a : ℕ}
    (ha : a < base + entry.vaddr ∨ base + entry.vaddr + entry.msize ≤ a) :
    fillSegment mem entry fileData base a = mem a := by
  rw [fillSegment_eq hfits hspace, copyData_outside (by omega) (by omega), store_outside ha]

theorem fillSegment_placed (hfile : FileAt mem fileData size file)
    (hfits : entry.fsize ≤ entry.msize)
    (hspace : base + entry.vaddr + entry.msize ≤ 2 ^ 32)
    (hapart : ∀ a, fileData ≤ a → a < fileData + size →
      a < base + entry.vaddr ∨ base + entry.vaddr + entry.msize ≤ a) :
    Placed (fillSegment mem entry fileData base) base file size entry where
  data k hk hinside := by
    have hsource : element fileData 1 ((k + entry.dataOffset) % 2 ^ 32) =
        fileData + (entry.dataOffset + k) := by
      have hend := hfile.inSpace
      rw [element, Nat.one_mul, Nat.mod_eq_of_lt (by omega), Nat.mod_eq_of_lt (by omega),
        Nat.add_comm k]
    have hsegment := hapart (fileData + (entry.dataOffset + k)) (by omega) (by omega)
    rw [fillSegment_eq hfits hspace, copyData_inside (by omega) hk hsource (by omega),
      store_outside hsegment, hfile.bytes _ hinside]
  zeros k hk hbehind := by
    rw [fillSegment_eq hfits hspace, copyData_outside (by omega) (by omega), store_inside hk]

/-- A segment is cleared and filled, and nothing else is written. -/
theorem loadSegmentDynamic_spec (hfile : FileAt mem fileData size file)
    (hobject : SharedObject file size) (hfits : entry.fsize ≤ entry.msize)
    (hspace : base + entry.vaddr + entry.msize ≤ 2 ^ 32)
    (hapart : ∀ a, fileData ≤ a → a < fileData + size →
      a < base + entry.vaddr ∨ base + entry.vaddr + entry.msize ≤ a) :
    (loadSegmentDynamic mem entry fileData base).2 = base ∧
      (∀ a, (∀ k, entry.Covers k → a ≠ base + k) →
        (loadSegmentDynamic mem entry fileData base).1 a = mem a) ∧
      (entry.type = 1 →
        Placed (loadSegmentDynamic mem entry fileData base).1 base file size entry) := by
  by_cases hload : entry.type = 1
  · have hshared : DynamicImage.elfType mem fileData = elfTypeShared :=
      (hfile.elfType hobject.whole).trans hobject.shared
    rw [loadSegmentDynamic, if_pos hload, if_pos hshared]
    refine ⟨rfl, ?_, fun _ => ?_⟩
    · intro a ha
      have houtside : a < base + entry.vaddr ∨ base + entry.vaddr + entry.msize ≤ a := by
        by_contra hinside
        exact ha (a - base) ⟨hload, by omega, by omega⟩ (by omega)
      exact fillSegment_outside hfits hspace houtside
    · exact fillSegment_placed hfile hfits hspace hapart
  · rw [loadSegmentDynamic, if_neg hload]
    exact ⟨rfl, fun _ _ => rfl, fun h => absurd h hload⟩

end Segment

/-! ## All segments -/

/-- A block of pages that shares no byte with the file, and the memory behind the
allocation. -/
structure FreshBlock (mem allocated : Memory) (fileData size block pages : ℕ) : Prop where
  inSpace : block + 4096 * pages ≤ 2 ^ 32
  apart : ∀ a, fileData ≤ a → a < fileData + size → a < block ∨ block + 4096 * pages ≤ a
  keeps : ∀ a, fileData ≤ a → a < fileData + size → allocated a = mem a

/-- Only the block is written, each segment lies in it and holds its bytes, and the
entry is an offset into it. -/
structure ImageComplete (allocated : Memory) (block pages : ℕ) (file : ℕ → UInt8)
    (size : ℕ) (result : Memory × ℕ) : Prop where
  outside : ∀ a, a < block ∨ block + 4096 * pages ≤ a → result.1 a = allocated a
  inside : ∀ i < programEntryCount file 0,
    (fileEntry file i).vaddr + (fileEntry file i).msize ≤ 4096 * pages
  placed : ∀ i < programEntryCount file 0, (fileEntry file i).type = 1 →
    Placed result.1 block file size (fileEntry file i)
  entry : result.2 = (block + entryOffset file 0) % 2 ^ 32

section Image

variable {mem allocated : Memory} {fileData size block pages : ℕ} {file : ℕ → UInt8}

theorem Placed.frame {loaded : Memory} {entry : ProgramEntry}
    (hplaced : Placed mem block file size entry) (hload : entry.type = 1)
    (hfits : entry.fsize ≤ entry.msize)
    (hsame : ∀ a, entry.Covers a → loaded (block + a) = mem (block + a)) :
    Placed loaded block file size entry where
  data k hk hinside := by
    have hbyte := hsame (entry.vaddr + k) ⟨hload, by omega, by omega⟩
    rw [Nat.add_assoc, hbyte, ← Nat.add_assoc]
    exact hplaced.data k hk hinside
  zeros k hk hbehind := by
    have hbyte := hsame (entry.vaddr + k) ⟨hload, by omega, by omega⟩
    rw [Nat.add_assoc, hbyte, ← Nat.add_assoc]
    exact hplaced.zeros k hk hbehind

theorem unsignedMax_eq (i1 i2 : ℕ) : unsignedMax i1 i2 = max i1 i2 := by
  rw [unsignedMax]
  split <;> omega

/-- The limit lies behind every segment and below the last page. -/
theorem imageLimit_spec (hfile : FileAt mem fileData size file)
    (hobject : SharedObject file size) {count : ℕ} (hcount : count ≤ programEntryCount file 0) :
    (∀ i < count, (fileEntry file i).vaddr + (fileEntry file i).msize ≤
        imageLimit mem ((fileData + programHeaderOffset file 0) % 2 ^ 32) count) ∧
      imageLimit mem ((fileData + programHeaderOffset file 0) % 2 ^ 32) count <
        2 ^ 32 - 4096 := by
  induction count with
  | zero =>
      refine ⟨fun i hi => absurd hi (Nat.not_lt_zero i), ?_⟩
      show 0 < 2 ^ 32 - 4096
      decide
  | succ n ih =>
      obtain ⟨habove, hbelow⟩ := ih (by omega)
      have hlow := hobject.low n hcount
      have hend : ((fileEntry file n).vaddr + (fileEntry file n).msize) % 2 ^ 32 =
          (fileEntry file n).vaddr + (fileEntry file n).msize := Nat.mod_eq_of_lt (by omega)
      rw [imageLimit, hfile.programEntry hobject hcount, unsignedMax_eq, hend]
      refine ⟨fun i hi => ?_, max_lt hbelow hlow⟩
      obtain hlast | hearlier := (Nat.lt_succ_iff_lt_or_eq.mp hi).symm
      · rw [hlast]
        exact le_max_right _ _
      · exact (habove i hearlier).trans (le_max_left _ _)

theorem imagePages_spec (hfile : FileAt mem fileData size file)
    (hobject : SharedObject file size) {i : ℕ} (hi : i < programEntryCount file 0) :
    (fileEntry file i).vaddr + (fileEntry file i).msize ≤ 4096 * imagePages mem fileData := by
  have hoffset := hfile.programHeaderOffset hobject.whole
  have hcount := hfile.programEntryCount hobject.whole
  obtain ⟨habove, hbelow⟩ := imageLimit_spec hfile hobject le_rfl
  have hend := habove i hi
  rw [imagePages, hoffset, hcount]
  omega

/-- The segments in front of header `count`: each one is put where no earlier one lies. -/
theorem loadSegments_spec (hfile : FileAt allocated fileData size file)
    (hobject : SharedObject file size)
    (hinside : ∀ i < programEntryCount file 0,
      (fileEntry file i).vaddr + (fileEntry file i).msize ≤ 4096 * pages)
    (hspace : block + 4096 * pages ≤ 2 ^ 32)
    (hapart : ∀ a, fileData ≤ a → a < fileData + size →
      a < block ∨ block + 4096 * pages ≤ a)
    {count : ℕ} (hcount : count ≤ programEntryCount file 0) :
    ∃ loaded, loadSegments allocated ((fileData + programHeaderOffset file 0) % 2 ^ 32)
        fileData block count = (loaded, block) ∧
      (∀ a, a < block ∨ block + 4096 * pages ≤ a → loaded a = allocated a) ∧
      ∀ i < count, (fileEntry file i).type = 1 →
        Placed loaded block file size (fileEntry file i) := by
  induction count with
  | zero => exact ⟨allocated, rfl, fun _ _ => rfl, fun i hi => absurd hi (Nat.not_lt_zero i)⟩
  | succ n ih =>
      obtain ⟨loaded, hrun, houtside, hplaced⟩ := ih (by omega)
      have hstill : FileAt loaded fileData size file :=
        hfile.frame fun a hlow hhigh => houtside a (hapart a hlow hhigh)
      have hend := hinside n hcount
      obtain ⟨hbase, hframe, hnew⟩ := loadSegmentDynamic_spec hstill hobject
        (hobject.fits n hcount) (show block + _ + _ ≤ 2 ^ 32 by omega) (fun a hlow hhigh => by
          have hblock := hapart a hlow hhigh
          omega)
      refine ⟨(loadSegmentDynamic loaded (fileEntry file n) fileData block).1, ?_, ?_, ?_⟩
      · rw [loadSegments, hrun]
        dsimp only
        rw [hstill.programEntry hobject hcount]
        exact Prod.ext rfl hbase
      · intro a ha
        rw [hframe a, houtside a ha]
        intro k hk heq
        have hlow := hk.2.2
        omega
      · intro i hi hload
        obtain hlast | hearlier := (Nat.lt_succ_iff_lt_or_eq.mp hi).symm
        · rw [hlast] at hload ⊢
          exact hnew hload
        · refine (hplaced i hearlier hload).frame hload (hobject.fits i (by omega)) ?_
          intro a ha
          apply hframe
          intro k hk heq
          rw [Nat.add_left_cancel heq] at ha
          exact hobject.apart i (by omega) n hcount (by omega) k ha hk

end Image

/-- A module is loaded whole, and only into its block. -/
theorem loadElfDynamic_complete (kmalloc : Memory → ℕ → Memory × ℕ) {mem : Memory}
    {fileData size : ℕ} {file : ℕ → UInt8} (hfile : FileAt mem fileData size file)
    (hobject : SharedObject file size)
    (hfresh : FreshBlock mem (kmalloc mem (imagePages mem fileData)).1 fileData size
      (kmalloc mem (imagePages mem fileData)).2 (imagePages mem fileData)) :
    ImageComplete (kmalloc mem (imagePages mem fileData)).1
      (kmalloc mem (imagePages mem fileData)).2 (imagePages mem fileData) file size
      (loadElfDynamic kmalloc mem fileData) := by
  have hwhole := hobject.whole
  have hallocated := hfile.frame hfresh.keeps
  have hinside := fun i => @imagePages_spec mem fileData size file hfile hobject i
  obtain ⟨loaded, hrun, houtside, hplaced⟩ := loadSegments_spec hallocated hobject hinside
    hfresh.inSpace hfresh.apart le_rfl
  have hmagic : magic mem fileData = 0x464c457f := by
    have hword := hfile.readU32 (show 0 + 4 ≤ size by omega)
    exact hword.trans hobject.magic
  have htype : elfType mem fileData ≠ elfTypeCore := by
    rw [hfile.elfType hwhole, hobject.shared]
    decide
  have hentry : entryOffset loaded fileData = entryOffset file 0 :=
    (hallocated.frame fun a hlow hhigh =>
      houtside a (hfresh.apart a hlow hhigh)).entryOffset hwhole
  have hresult : loadElfDynamic kmalloc mem fileData = (loaded,
      ((kmalloc mem (imagePages mem fileData)).2 + entryOffset file 0) % 2 ^ 32) := by
    rw [loadElfDynamic, if_neg (not_or.mpr ⟨not_not.mpr hmagic, htype⟩),
      hfile.programHeaderOffset hwhole, hfile.programEntryCount hwhole]
    dsimp only
    rw [hrun]
    dsimp only
    rw [hentry]
  rw [hresult]
  exact ⟨houtside, hinside, hplaced, rfl⟩

/-- Two segments of three and one bytes of data, eight and four bytes in memory. -/
def sharedFile (k : ℕ) : UInt8 :=
  ([0x7f, 0x45, 0x4c, 0x46, 1, 1, 1, 0, 0, 0, 0, 0, 0, 0, 0, 0,
    3, 0, 3, 0, 1, 0, 0, 0, 4, 0, 0, 0, 52, 0, 0, 0,
    0, 0, 0, 0, 0, 0, 0, 0, 52, 0, 32, 0, 2, 0, 0, 0, 0, 0, 0, 0,
    1, 0, 0, 0, 116, 0, 0, 0, 8, 0, 0, 0, 8, 0, 0, 0,
    3, 0, 0, 0, 8, 0, 0, 0, 5, 0, 0, 0, 0, 16, 0, 0,
    1, 0, 0, 0, 119, 0, 0, 0, 0, 0, 0, 0, 0, 0, 0, 0,
    1, 0, 0, 0, 4, 0, 0, 0, 6, 0, 0, 0, 0, 16, 0, 0,
    11, 12, 13, 14] : List UInt8).getD k 0

theorem sharedFile_object : SharedObject sharedFile 120 := by
  have hcount : programEntryCount sharedFile 0 = 2 := by decide
  have hfirst : fileEntry sharedFile 0 = ⟨1, 116, 8, 3, 8⟩ := by decide
  have hsecond : fileEntry sharedFile 1 = ⟨1, 119, 0, 1, 4⟩ := by decide
  refine ⟨by decide, by decide, by decide, by decide, ?_, ?_, ?_⟩
  · rw [hcount]
    decide
  · rw [hcount]
    decide
  · rw [hcount]
    intro i hi j hj hne a hcovers hagain
    obtain rfl | rfl : i = 0 ∨ i = 1 := by omega
    · obtain rfl : j = 1 := by omega
      rw [hfirst] at hcovers
      rw [hsecond] at hagain
      exact absurd (hcovers.2.1.trans_lt hagain.2.2) (by decide)
    · obtain rfl : j = 0 := by omega
      rw [hsecond] at hcovers
      rw [hfirst] at hagain
      exact absurd (hagain.2.1.trans_lt hcovers.2.2) (by decide)

/-- The file behind the first page, and the block behind the second. -/
def sharedRam : Memory := fun a => sharedFile (a - 4096)

def sharedBlock (mem : Memory) (_ : ℕ) : Memory × ℕ := (mem, 8192)

theorem sharedRam_fileAt : FileAt sharedRam 4096 120 sharedFile where
  bytes k _ := by rw [sharedRam, Nat.add_sub_cancel_left]
  inSpace := by decide

theorem sharedBlock_fresh : FreshBlock sharedRam sharedRam 4096 120 8192 1 where
  inSpace := by decide
  apart a _ hhigh := Or.inl (hhigh.trans_le (by decide))
  keeps _ _ _ := rfl

theorem sharedFile_complete :
    imagePages sharedRam 4096 = 1 ∧
      ImageComplete (sharedBlock sharedRam (imagePages sharedRam 4096)).1
        (sharedBlock sharedRam (imagePages sharedRam 4096)).2 (imagePages sharedRam 4096)
        sharedFile 120 (loadElfDynamic sharedBlock sharedRam 4096) := by
  have hpages : imagePages sharedRam 4096 = 1 := by decide
  have hfresh : FreshBlock sharedRam
      (sharedBlock sharedRam (imagePages sharedRam 4096)).1 4096 120
      (sharedBlock sharedRam (imagePages sharedRam 4096)).2 (imagePages sharedRam 4096) := by
    rw [hpages, sharedBlock]
    dsimp only
    exact sharedBlock_fresh
  exact ⟨hpages, loadElfDynamic_complete sharedBlock sharedRam_fileAt sharedFile_object hfresh⟩

end KimisOS.DynamicImage
