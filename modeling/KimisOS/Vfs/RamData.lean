import KimisOS.Core.ByteStore
import KimisOS.Vfs.Ramfs

/-!
# The contents of RAM files

The contents of a file are a block of pages behind `private`.  A write makes the
block larger when it has to; a read copies from it without looking at the size of
the file.
-/

namespace KimisOS.RamData

open KimisOS.ByteStore
open KimisOS.Vfs

def fsFileReadOnly : ℕ := 1

/-- `sizeof(vfile_t)`: the last field, a lock of one byte, is at 126. -/
def sizeofVfile : ℕ := 128

/-- A `uint32_t` as an `int`. -/
def asInt (n : ℕ) : ℤ := if n % 2 ^ 32 < 2 ^ 31 then n % 2 ^ 32 else n % 2 ^ 32 - 2 ^ 32

/-- The fields of `vfile_t` that the calls below use. -/
structure File where
  privatePtr : ℕ
  size : ℕ
  flags : ℕ
  deriving DecidableEq

/-- The first rounds of `memcpy`.  Pointers have 32 bits. -/
def memcpy (mem : ℕ → UInt8) (src dest : ℕ) : ℕ → ℕ → UInt8
  | 0 => mem
  | i + 1 =>
      let copied := memcpy mem src dest i
      Function.update copied ((dest + i) % 2 ^ 32) (copied ((src + i) % 2 ^ 32))

/-- One call of `memcpy`. -/
structure Copy where
  src : ℕ
  dest : ℕ
  length : ℕ
  deriving DecidableEq

/-- The addresses it reads. -/
def Copy.sources (copy : Copy) : List ℕ :=
  (List.range copy.length).map fun i => (copy.src + i) % 2 ^ 32

/-! ## Reading -/

/-- What a read returns and leaves in memory; the slots of a child table it reads
and its copies are not kept by the code. -/
structure Read where
  returned : ℤ
  mem : ℕ → UInt8
  slots : List ℕ
  copies : List Copy

def Read.nothing (mem : ℕ → UInt8) : Read := ⟨0, mem, [], []⟩

/-- The first rounds of the loop of `ramfs_translate_dir`. -/
def translateEntries (mem : ℕ → UInt8) (dirents buffer offset : ℕ) : ℕ → Read
  | 0 => Read.nothing mem
  | i + 1 =>
      let read := translateEntries mem dirents buffer offset i
      let slot := (i + offset) % 2 ^ 64
      let copy : Copy :=
        ⟨readU32 read.mem ((dirents + 4 * slot) % 2 ^ 32), buffer + i * sizeofVfile, sizeofVfile⟩
      { read with
        mem := memcpy read.mem copy.src copy.dest copy.length
        slots := read.slots ++ [slot]
        copies := read.copies ++ [copy] }

def ramfsTranslateDir (mem : ℕ → UInt8) (file : File) (buffer offset count : ℕ) : Read :=
  let direntsRequested := count / sizeofVfile % 2 ^ 32
  let direntsAvailible := file.size / 4 % 2 ^ 32
  let toCopy := min direntsAvailible direntsRequested
  { translateEntries mem file.privatePtr buffer offset toCopy with
    returned := asInt (toCopy * sizeofVfile) }

def ramfsRead (mem : ℕ → UInt8) (file : File) (buffer offset count : ℕ) : Read :=
  if buffer = 0 ∨ file.privatePtr = 0 ∨ file.flags &&& fsFileMount ≠ 0 then Read.nothing mem
  else if file.flags &&& fsFileIsDir ≠ 0 then ramfsTranslateDir mem file buffer offset count
  else
    let copy : Copy := ⟨file.privatePtr + offset, buffer, count % 2 ^ 32⟩
    { returned := asInt count
      mem := memcpy mem copy.src copy.dest copy.length
      slots := []
      copies := [copy] }

/-- `fread` of a file of the RAM file system. -/
def fread (mem : ℕ → UInt8) (file : File) (buffer offset count : ℕ) : Read :=
  if buffer = 0 ∨ count = 0 then Read.nothing mem
  else ramfsRead mem file buffer offset count

/-! ## Writing -/

structure Resized where
  mem : ℕ → UInt8
  file : File
  returned : ℕ

/-- `ramfs_resize`, with what `kmalloc` returns for a number of pages.  The length
that is copied is taken from a comparison of bytes with pages. -/
def ramfsResize (mem : ℕ → UInt8) (file : File) (newSizeBytes : ℕ) (kmalloc : ℕ → ℕ) :
    Resized :=
  if newSizeBytes = file.size then ⟨mem, file, newSizeBytes⟩
  else
    let newSizePages := (newSizeBytes + 4095) % 2 ^ 32 / 4096
    let oldSizePages := (file.size + 4095) / 4096 % 2 ^ 32
    if oldSizePages = newSizePages then
      ⟨mem, { file with size := newSizeBytes }, newSizeBytes⟩
    else
      let newPtr := kmalloc newSizePages
      if newPtr = 0 then ⟨mem, file, 0⟩
      else
        let kept := if newSizeBytes < oldSizePages then newSizeBytes else file.size
        let mem := if file.privatePtr = 0 then mem
          else memcpy mem file.privatePtr newPtr (kept % 2 ^ 32)
        ⟨mem, { file with privatePtr := newPtr, size := newSizeBytes }, newSizeBytes⟩

structure Written where
  mem : ℕ → UInt8
  file : File
  returned : ℤ

def ramfsWrite (mem : ℕ → UInt8) (file : File) (buffer offset count : ℕ)
    (kmalloc : ℕ → ℕ) : Written :=
  if buffer = 0 ∨ file.flags &&& (fsFileReadOnly ||| fsFileIsDir ||| fsFileMount) ≠ 0 then
    ⟨mem, file, 0⟩
  else if file.size < (count + offset) % 2 ^ 64 then
    let resized := ramfsResize mem file ((count + offset) % 2 ^ 32) kmalloc
    if resized.returned = 0 then ⟨resized.mem, resized.file, 0⟩
    else
      ⟨memcpy resized.mem buffer (resized.file.privatePtr + offset) (count % 2 ^ 32),
        resized.file, asInt count⟩
  else ⟨memcpy mem buffer (file.privatePtr + offset) (count % 2 ^ 32), file, asInt count⟩

/-! ## Copies between blocks that are apart -/

/-- No address belongs to both blocks. -/
def Apart (block length other otherLength : ℕ) : Prop :=
  block + length ≤ other ∨ other + otherLength ≤ block

variable {mem : ℕ → UInt8} {src dest count : ℕ}

/-- Between blocks that are apart and end in memory, `memcpy` stores what it
loads. -/
theorem memcpy_eq_store (hapart : Apart src count dest count) (hsrc : src + count ≤ 2 ^ 32)
    (hdest : dest + count ≤ 2 ^ 32) :
    memcpy mem src dest count = store mem dest (load mem src) count := by
  induction count with
  | zero => exact (store_zero mem dest (load mem src)).symm
  | succ i ih =>
      have hrest : Apart src i dest i := by
        rcases hapart with hbelow | habove
        · exact Or.inl (by omega)
        · exact Or.inr (by omega)
      have hread : store mem dest (load mem src) i (src + i) = mem (src + i) := by
        refine store_outside ?_
        rcases hapart with hbelow | habove <;> omega
      rw [memcpy, ih hrest (by omega) (by omega), Nat.mod_eq_of_lt (by omega),
        Nat.mod_eq_of_lt (by omega), hread]
      funext a
      by_cases ha : a = dest + i
      · subst ha
        rw [Function.update_self, store_inside (Nat.lt_succ_self i), load]
      · rw [Function.update_of_ne ha, store, store]
        congr 1
        exact propext ⟨fun h => ⟨h.1, by omega⟩, fun h => ⟨h.1, by omega⟩⟩

/-! ## Growing -/

def pagesOf (size : ℕ) : ℕ := (size + 4095) / 4096

/-- The number of pages as `ramfs_resize` computes it, with the wrap of `uint32_t`. -/
theorem pagesOf_word (size : ℕ) (hsize : size + 4095 < 2 ^ 32) :
    (size + 4095) % 2 ^ 32 / 4096 = pagesOf size ∧
      (size + 4095) / 4096 % 2 ^ 32 = pagesOf size := by
  constructor
  · rw [pagesOf, Nat.mod_eq_of_lt hsize]
  · rw [pagesOf, Nat.mod_eq_of_lt (by omega)]

/-- The length of the block behind `private`. -/
def File.blockLength (file : File) : ℕ := pagesOf file.size * 4096

theorem size_le_blockLength (file : File) : file.size ≤ file.blockLength := by
  rw [File.blockLength, pagesOf]
  omega

/-- The block of the file has the same bytes in both memories. -/
def File.KeptIn (file : File) (mem mem' : ℕ → UInt8) : Prop :=
  ∀ p < file.blockLength, mem' (file.privatePtr + p) = mem (file.privatePtr + p)

/-- There are no more pages than fit in 32 bits. -/
theorem length_pages_le {pages : List ℕ} (hnodup : pages.Nodup)
    (hpages : ∀ page ∈ pages, page % 4096 = 0 ∧ page < 2 ^ 32) : pages.length ≤ 2 ^ 20 := by
  have hmaps : ∀ page ∈ pages.toFinset, page / 4096 ∈ Finset.range (2 ^ 20) := by
    intro page hpage
    obtain ⟨-, hlt⟩ := hpages page (List.mem_toFinset.mp hpage)
    rw [Finset.mem_range]
    omega
  have hinj : Set.InjOn (fun page : ℕ => page / 4096) pages.toFinset := by
    intro page hpage other hother heq
    obtain ⟨haligned, -⟩ := hpages page (List.mem_toFinset.mp hpage)
    obtain ⟨haligned', -⟩ := hpages other (List.mem_toFinset.mp hother)
    have hsame : page / 4096 = other / 4096 := heq
    omega
  have hcard := Finset.card_le_card_of_injOn (fun page : ℕ => page / 4096) hmaps hinj
  rwa [List.toFinset_card_of_nodup hnodup, Finset.card_range] at hcard

/-- The block of the file is in memory. -/
structure File.Placed (file : File) : Prop where
  small : file.size < 2 ^ 31
  contents : file.privatePtr = 0 → file.size = 0
  inMemory : file.privatePtr + file.blockLength ≤ 2 ^ 32

/-- A block that `kmalloc` returns for that many bytes is apart from the block of the
file. -/
structure File.Fresh (file : File) (block size : ℕ) : Prop where
  notNull : block ≠ 0
  inMemory : block + pagesOf size * 4096 ≤ 2 ^ 32
  apart : Apart block (pagesOf size * 4096) file.privatePtr file.blockLength

/-- A file that has grown: it has its bytes, in its block or in the new one. -/
structure Grew (mem : ℕ → UInt8) (file : File) (newSize block : ℕ) (resized : Resized) :
    Prop where
  returned : resized.returned = newSize
  size : resized.file.size = newSize
  flags : resized.file.flags = file.flags
  contents : resized.file.privatePtr ≠ 0
  placed : resized.file.Placed
  place : resized.file.privatePtr = file.privatePtr ∧
      resized.file.blockLength = file.blockLength ∨
    pagesOf file.size < pagesOf newSize ∧ resized.file.privatePtr = block ∧
      resized.file.blockLength = pagesOf newSize * 4096
  old : ∀ p < file.size,
    resized.mem (resized.file.privatePtr + p) = mem (file.privatePtr + p)
  others : ∀ a, a < resized.file.privatePtr ∨
    resized.file.privatePtr + resized.file.blockLength ≤ a → resized.mem a = mem a

/-- A block of the same length has the same pages. -/
theorem Grew.pages_eq {file : File} {newSize block : ℕ} {resized : Resized}
    (hgrew : Grew mem file newSize block resized)
    (hlength : resized.file.blockLength = file.blockLength) :
    pagesOf newSize = pagesOf file.size := by
  rw [File.blockLength, File.blockLength, hgrew.size] at hlength
  omega

theorem ramfsResize_grew {file : File} {newSize : ℕ} {kmalloc : ℕ → ℕ} (hfile : file.Placed)
    (hgrows : file.size < newSize) (hsmall : newSize < 2 ^ 31)
    (hfresh : pagesOf file.size < pagesOf newSize →
      file.Fresh (kmalloc (pagesOf newSize)) newSize) :
    Grew mem file newSize (kmalloc (pagesOf newSize))
      (ramfsResize mem file newSize kmalloc) := by
  have hold := hfile.small
  have hmemory := hfile.inMemory
  have hblock := size_le_blockLength file
  have hnew := (pagesOf_word newSize (by omega)).1
  have holdPages := (pagesOf_word file.size (by omega)).2
  have hmono : pagesOf file.size ≤ pagesOf newSize := by
    rw [pagesOf, pagesOf]
    omega
  rw [ramfsResize, if_neg (by omega)]
  simp only [hnew, holdPages]
  by_cases hpages : pagesOf file.size = pagesOf newSize
  · -- The block has room for the new bytes.
    rw [if_pos hpages]
    have hlength : ({ file with size := newSize } : File).blockLength = file.blockLength := by
      rw [File.blockLength, File.blockLength, hpages]
    have hcontents : file.privatePtr ≠ 0 := by
      intro hnull
      rw [hfile.contents hnull, pagesOf, pagesOf] at hpages
      omega
    have hplaced : ({ file with size := newSize } : File).Placed :=
      ⟨hsmall, fun hnull => absurd hnull hcontents, by rw [hlength]; exact hmemory⟩
    exact ⟨rfl, rfl, rfl, hcontents, hplaced, .inl ⟨rfl, hlength⟩, fun p hp => rfl,
      fun a ha => rfl⟩
  · have hlt : pagesOf file.size < pagesOf newSize := by omega
    have hblockFresh := hfresh hlt
    have hroom := hblockFresh.inMemory
    have hapart := hblockFresh.apart
    have hbound : newSize ≤ pagesOf newSize * 4096 := by
      rw [pagesOf]
      omega
    have hkept : (if newSize < pagesOf file.size then newSize else file.size) % 2 ^ 32 =
        file.size := by
      have hbytes : ¬ newSize < pagesOf file.size := by
        rw [pagesOf]
        omega
      rw [if_neg hbytes, Nat.mod_eq_of_lt (by omega)]
    have hmoved : (if file.privatePtr = 0 then mem
        else memcpy mem file.privatePtr (kmalloc (pagesOf newSize))
          ((if newSize < pagesOf file.size then newSize else file.size) % 2 ^ 32)) =
        store mem (kmalloc (pagesOf newSize)) (load mem file.privatePtr) file.size := by
      rw [hkept]
      split
      next hnull => rw [hfile.contents hnull, store_zero]
      next =>
        refine memcpy_eq_store ?_ (by omega) (by omega)
        rw [Apart] at hapart ⊢
        omega
    rw [if_neg hpages, if_neg hblockFresh.notNull, hmoved]
    refine ⟨rfl, rfl, rfl, hblockFresh.notNull, ⟨hsmall, ?_, hroom⟩, .inr ⟨hlt, rfl, rfl⟩, ?_, ?_⟩
    · exact fun hnull => absurd hnull hblockFresh.notNull
    · intro p hp
      exact store_inside hp
    · intro a ha
      refine store_outside ?_
      have hlength : (⟨kmalloc (pagesOf newSize), newSize, file.flags⟩ : File).blockLength =
          pagesOf newSize * 4096 := rfl
      dsimp only at ha
      rw [hlength] at ha
      omega

/-! ## Numbers of bytes that are returned -/

theorem asInt_of_lt {n : ℕ} (hn : n < 2 ^ 31) : asInt n = n := by
  have hmod : n % 2 ^ 32 = n := Nat.mod_eq_of_lt (by omega)
  rw [asInt, hmod, if_pos hn]
  exact_mod_cast hmod

theorem asInt_eq_natCast {n k : ℕ} : asInt n = k ↔ n % 2 ^ 32 = k ∧ k < 2 ^ 31 := by
  rw [asInt]
  split <;> omega

/-! ## Reads inside a file -/

/-- A file that is no directory and no mount point.  It has no bytes before it has
contents. -/
structure Regular extends File where
  noDirectory : flags &&& fsFileIsDir = 0
  noMount : flags &&& fsFileMount = 0
  noContents : privatePtr = 0 → size = 0

/-- How many bytes there are to read. -/
def available (file : File) (offset count : ℕ) : ℕ := min count (file.size - offset)

/-- The read copies the bytes of the file from `offset` on, as far as there are
any, and returns their number. -/
def StaysInside (file : File) (offset count : ℕ) (read : Read) : Prop :=
  read.returned = available file offset count ∧
    read.copies.flatMap Copy.sources =
      (List.range (available file offset count)).map fun i =>
        (file.privatePtr + (offset + i)) % 2 ^ 32

/-- The read ends in the file, or it is longer than what is left by a multiple of
`2 ^ 32`; and its length is an `int`. -/
def EndsInside (file : File) (offset count : ℕ) : Prop :=
  (count ≤ file.size - offset ∨ count % 2 ^ 32 = file.size - offset) ∧
    available file offset count < 2 ^ 31

theorem staysInside_nothing_iff {file : File} {offset count : ℕ} :
    StaysInside file offset count (Read.nothing mem) ↔ available file offset count = 0 := by
  constructor
  · rintro ⟨hreturned, -⟩
    have hzero : (0 : ℤ) = available file offset count := hreturned
    exact_mod_cast hzero.symm
  · intro hnone
    simp [StaysInside, Read.nothing, hnone]

theorem staysInside_copy_iff {file : File} {read : Read} {offset count dest : ℕ}
    (hreturned : read.returned = asInt count)
    (hcopies : read.copies = [⟨file.privatePtr + offset, dest, count % 2 ^ 32⟩]) :
    StaysInside file offset count read ↔ EndsInside file offset count := by
  have hexact : count % 2 ^ 32 = available file offset count ↔
      available file offset count < 2 ^ 32 ∧
        (count ≤ file.size - offset ∨ count % 2 ^ 32 = file.size - offset) := by
    rw [available]
    omega
  rw [StaysInside, EndsInside, hreturned, hcopies, asInt_eq_natCast]
  constructor
  · rintro ⟨⟨hcount, hint⟩, -⟩
    exact ⟨(hexact.mp hcount).2, hint⟩
  · rintro ⟨hends, hint⟩
    have hcount := hexact.mpr ⟨by omega, hends⟩
    refine ⟨⟨hcount, hint⟩, ?_⟩
    rw [← hcount]
    simp [Copy.sources, Nat.add_assoc]

variable (mem) {buffer : ℕ}

theorem ramfsRead_inside_iff (file : Regular) (hbuffer : buffer ≠ 0) (offset count : ℕ) :
    StaysInside file.toFile offset count (ramfsRead mem file.toFile buffer offset count) ↔
      file.privatePtr = 0 ∨ EndsInside file.toFile offset count := by
  rw [ramfsRead]
  by_cases hcontents : file.privatePtr = 0
  · have hnone : available file.toFile offset count = 0 := by
      rw [available, file.noContents hcontents]
      omega
    simp only [hcontents, true_or, or_true, if_true]
    simpa [staysInside_nothing_iff] using hnone
  · simp only [hbuffer, hcontents, file.noMount, file.noDirectory, ne_eq, not_true_eq_false,
      or_self, if_false, false_or]
    exact staysInside_copy_iff rfl rfl

/-- A read of a regular file copies the bytes of the file and no others, and returns
their number, exactly if the file has no contents or the read ends inside it; so
does `fread`. -/
theorem read_inside_iff (file : Regular) (buffer : ℕ) (hbuffer : buffer ≠ 0)
    (offset count : ℕ) :
    (StaysInside file.toFile offset count
        (ramfsRead mem file.toFile buffer offset count) ↔
      file.privatePtr = 0 ∨ EndsInside file.toFile offset count) ∧
    (StaysInside file.toFile offset count (fread mem file.toFile buffer offset count) ↔
      file.privatePtr = 0 ∨ EndsInside file.toFile offset count) := by
  have hread := @ramfsRead_inside_iff mem buffer file hbuffer offset count
  refine ⟨hread, ?_⟩
  rw [fread]
  by_cases hcount : count = 0
  · have hnone : available file.toFile offset 0 = 0 := Nat.zero_min _
    simp [hcount, EndsInside, staysInside_nothing_iff, hnone]
  · rwa [if_neg (by simp [hbuffer, hcount])]

/-- A file of ten bytes. -/
def tenBytes : Regular where
  privatePtr := 0xc0100000
  size := 10
  flags := 0
  noDirectory := by decide
  noMount := by decide
  noContents := by decide

theorem read_inside_tenBytes :
    StaysInside tenBytes.toFile 4 6
        (ramfsRead (fun _ => 0) tenBytes.toFile 0xc0200000 4 6) ∧
      StaysInside tenBytes.toFile 4 6
        (fread (fun _ => 0) tenBytes.toFile 0xc0200000 4 6) := by
  obtain ⟨hread, hfread⟩ :=
    read_inside_iff (fun _ => 0) tenBytes 0xc0200000 (by decide) 4 6
  exact ⟨hread.mpr (.inr ⟨.inl (by decide), by decide⟩),
    hfread.mpr (.inr ⟨.inl (by decide), by decide⟩)⟩

/-- Behind the end of the file, the bytes that follow it are read. -/
theorem read_behind_the_end :
    ¬ StaysInside tenBytes.toFile 10 4
      (fread (fun _ => 0) tenBytes.toFile 0xc0200000 10 4) := by
  rintro ⟨hreturned, -⟩
  exact absurd hreturned (by decide)

end KimisOS.RamData
