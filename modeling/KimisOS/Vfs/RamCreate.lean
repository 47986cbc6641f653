import KimisOS.Vfs.RamData

/-!
# Creating files in memory

A new file takes a page of its own, and its directory a pointer to it.  The pointer
goes to the first empty slot of the array; without one, the array grows by a slot
before the page is taken.
-/

namespace KimisOS.RamData

open KimisOS.ByteStore
open KimisOS.Fat32
open KimisOS.Vfs

/-! ## `vfile_t` -/

/-- The name is the first field. -/
def nameLength : ℕ := 76

def flagsOffset : ℕ := 76
def fileopsOffset : ℕ := 80
def refcountOffset : ℕ := 84
def blockSizeOffset : ℕ := 112

/-- `strcpy` writes the string and its terminator, and nothing to a null
pointer. -/
def strcpy (mem : ℕ → UInt8) (src : CString) (dest : ℕ) : ℕ → UInt8 :=
  if dest = 0 then mem else store mem dest (fun i => src.getD i 0) (src.length + 1)

/-- `!strcmp` of the string at an address with `str2`. -/
def sameString (mem : ℕ → UInt8) : ℕ → CString → Bool
  | address, [] => mem address = 0
  | address, c :: str2 => mem address = c && sameString mem (address + 1) str2

/-! ## `search_dir` -/

/-- The loop of `search_dir` from index `i` on. -/
def searchFrom (mem : ℕ → UInt8) (children : ℕ) (subname : CString) : ℕ → ℕ → ℕ
  | 0, _ => 0
  | rounds + 1, i =>
      let child := readU32 mem (children + 4 * i)
      if child ≠ 0 ∧ sameString mem child subname then child
      else searchFrom mem children subname rounds (i + 1)

def searchDir (mem : ℕ → UInt8) (subname : CString) (directory : File) : ℕ :=
  if directory.privatePtr = 0 then 0
  else searchFrom mem directory.privatePtr subname (directory.size / 4) 0

/-! ## `ramfs_create` -/

/-- The loop that looks for an empty slot, from index `i` on. -/
def emptySlot (mem : ℕ → UInt8) (dirents : ℕ) : ℕ → ℕ → Option ℕ
  | 0, _ => none
  | rounds + 1, i =>
      if readU32 mem (dirents + 4 * i) = 0 then some i
      else emptySlot mem dirents rounds (i + 1)

/-- The new file: zeros, its name and its flags. -/
def initFile (mem : ℕ → UInt8) (newName : CString) (flags file : ℕ) : ℕ → UInt8 :=
  let cleared := store mem file (fun _ => 0) sizeofVfile
  let named := strcpy cleared newName file
  writeU16 named (file + flagsOffset) flags

/-- Memory and the directory behind a call, and the file it returns. -/
structure Created where
  mem : ℕ → UInt8
  parent : File
  returned : ℕ

/-- `ramfs_create`, with the address of `ramfs_ops` and what its calls of `kmalloc`
return: that of `ramfs_resize` for a number of pages, and that of the page of the new
file. -/
def ramfsCreate (mem : ℕ → UInt8) (root : File) (path : CString) (flags ramfsOps : ℕ)
    (kmalloc : ℕ → ℕ) (newFile : ℕ) : Created :=
  if root.flags &&& fsFileIsDir = 0 then ⟨mem, root, 0⟩
  else
    let newName := dropSlash path
    match emptySlot mem root.privatePtr (root.size / 4) 0 with
    | some i =>
        -- The page is not looked at before it is written to.
        let named := initFile mem newName flags newFile
        let linked := writeU32 named (root.privatePtr + 4 * i) newFile
        ⟨writeU32 linked (newFile + fileopsOffset) ramfsOps, root, newFile⟩
    | none =>
        let resized := ramfsResize mem root ((root.size + 4) % 2 ^ 32) kmalloc
        if resized.returned = 0 then ⟨resized.mem, resized.file, 0⟩
        else if newFile = 0 then ⟨resized.mem, resized.file, 0⟩
        else
          let named := initFile resized.mem newName flags newFile
          let last := resized.file.size / 4 - 1
          let linked := writeU32 named (resized.file.privatePtr + 4 * last) newFile
          let served := writeU32 linked (newFile + fileopsOffset) ramfsOps
          ⟨writeU16 served (newFile + blockSizeOffset) 1, resized.file, newFile⟩

/-! ## Strings -/

/-- The string at an address, with its terminator. -/
def HoldsString (mem : ℕ → UInt8) (address : ℕ) (string : CString) : Prop :=
  ∀ i ≤ string.length, mem (address + i) = string.getD i 0

variable {mem mem' : ℕ → UInt8} {address : ℕ} {name subname : CString}

/-- A string without zeros inside is found by exactly its own name. -/
theorem sameString_iff (hholds : HoldsString mem address name) (hname : 0 ∉ name)
    (hsubname : 0 ∉ subname) : sameString mem address subname = true ↔ name = subname := by
  induction name generalizing address subname with
  | nil =>
      have hfirst : mem address = 0 := hholds 0 le_rfl
      cases subname with
      | nil => simp [sameString, hfirst]
      | cons c subname =>
          have hc : (0 : UInt8) ≠ c := fun h => hsubname (by simp [h])
          simp [sameString, hfirst, hc]
  | cons b name ih =>
      have hfirst : mem address = b := hholds 0 (Nat.zero_le _)
      have hrest : HoldsString mem (address + 1) name := by
        intro i hi
        rw [Nat.add_assoc, Nat.add_comm 1 i]
        exact hholds (i + 1) (Nat.succ_le_succ hi)
      have hb : b ≠ 0 := fun h => hname (by simp [h])
      cases subname with
      | nil => simp [sameString, hfirst, hb]
      | cons c subname =>
          have htail := ih hrest (fun h => hname (List.mem_cons_of_mem _ h))
            (fun h : 0 ∈ subname => hsubname (List.mem_cons_of_mem _ h))
          simp [sameString, hfirst, htail]

theorem HoldsString.congr (hholds : HoldsString mem address name)
    (hsame : ∀ i ≤ name.length, mem' (address + i) = mem (address + i)) :
    HoldsString mem' address name := by
  intro i hi
  rw [hsame i hi, hholds i hi]

/-! ## The new file -/

/-- What `initFile` does, for a name that fits in its field: the name, zeros up to
the flags and behind them, and nothing else. -/
theorem initFile_spec {flags file : ℕ} (hfile : file ≠ 0) (hname : name.length < nameLength) :
    HoldsString (initFile mem name flags file) file name ∧
      (∀ b, flagsOffset + 2 ≤ b → b < sizeofVfile →
        initFile mem name flags file (file + b) = 0) ∧
      ∀ a, a < file ∨ file + sizeofVfile ≤ a → initFile mem name flags file a = mem a := by
  have hnamed : initFile mem name flags file =
      writeU16 (store (store mem file (fun _ => 0) sizeofVfile) file
        (fun i => name.getD i 0) (name.length + 1)) (file + flagsOffset) flags := by
    rw [initFile]
    simp only [strcpy, hfile, if_false]
  rw [nameLength] at hname
  rw [hnamed, writeU16, flagsOffset, sizeofVfile]
  refine ⟨?_, ?_, ?_⟩
  · intro i hi
    rw [store_outside (by omega), store_inside (by omega)]
  · intro b hb hlast
    rw [store_outside (by omega), store_outside (by omega), store_inside hlast]
  · intro a ha
    rw [store_outside (by omega), store_outside (by omega), store_outside (by omega)]

/-- A page that is linked into a slot: it has the name, the slot points to it, and
nothing else has changed. -/
structure Linked (mem : ℕ → UInt8) (name : CString) (page slot : ℕ) (linked : ℕ → UInt8) :
    Prop where
  holdsName : HoldsString linked page name
  pointer : readU32 linked slot = page
  zeros : ∀ b, refcountOffset ≤ b → b < blockSizeOffset → linked (page + b) = 0
  others : ∀ a, (a < page ∨ page + sizeofVfile ≤ a) → (a < slot ∨ slot + 4 ≤ a) →
    linked a = mem a

theorem linked_page {flags ramfsOps page slot : ℕ} (hpage : page ≠ 0) (hword : page < 2 ^ 32)
    (hname : name.length < nameLength) (hapart : Apart page sizeofVfile slot 4) :
    Linked mem name page slot
      (writeU32 (writeU32 (initFile mem name flags page) slot page) (page + fileopsOffset)
        ramfsOps) := by
  obtain ⟨hholds, hzeros, hothers⟩ := @initFile_spec mem name flags page hpage hname
  rw [nameLength] at hname
  rw [Apart, sizeofVfile] at hapart
  rw [sizeofVfile] at hothers
  rw [flagsOffset, sizeofVfile] at hzeros
  rw [fileopsOffset]
  refine ⟨?_, ?_, ?_, ?_⟩
  · refine hholds.congr ?_
    intro i hi
    rw [writeU32, writeU32, store_outside (by omega), store_outside (by omega)]
  · rw [readU32_writeU32_of_disjoint (by omega), readU32_writeU32_self,
      Nat.mod_eq_of_lt hword]
  · intro b hfrom hto
    rw [refcountOffset] at hfrom
    rw [blockSizeOffset] at hto
    rw [writeU32, writeU32, store_outside (by omega), store_outside (by omega),
      hzeros b (by omega) (by omega)]
  · intro a hpage hslot
    rw [sizeofVfile] at hpage
    rw [writeU32, writeU32, store_outside (by omega), store_outside (by omega),
      hothers a hpage]

theorem Linked.blockSize {page slot value : ℕ} {linked : ℕ → UInt8}
    (hlinked : Linked mem name page slot linked) (hname : name.length < nameLength)
    (hapart : Apart page sizeofVfile slot 4) :
    Linked mem name page slot (writeU16 linked (page + blockSizeOffset) value) := by
  rw [nameLength] at hname
  rw [Apart, sizeofVfile] at hapart
  rw [writeU16, blockSizeOffset]
  refine ⟨?_, ?_, ?_, ?_⟩
  · refine hlinked.holdsName.congr ?_
    intro i hi
    exact store_outside (by omega)
  · rw [readU32_store_outside (by omega)]
    exact hlinked.pointer
  · intro b hfrom hto
    rw [store_outside (by rw [blockSizeOffset] at hto; omega)]
    exact hlinked.zeros b hfrom hto
  · intro a hpage hslot
    rw [store_outside (by rw [sizeofVfile] at hpage; omega)]
    exact hlinked.others a hpage hslot

theorem emptySlot_none {dirents rounds i : ℕ}
    (hfull : ∀ j < rounds, readU32 mem (dirents + 4 * (i + j)) ≠ 0) :
    emptySlot mem dirents rounds i = none := by
  induction rounds generalizing i with
  | zero => rfl
  | succ rounds ih =>
      have hfirst := hfull 0 (Nat.succ_pos rounds)
      rw [Nat.add_zero] at hfirst
      rw [emptySlot, if_neg hfirst]
      refine ih ?_
      intro j hj
      have hnext := hfull (j + 1) (Nat.succ_lt_succ hj)
      rwa [Nat.add_comm j 1, ← Nat.add_assoc] at hnext

theorem emptySlot_some {dirents rounds i slot : ℕ}
    (hempty : emptySlot mem dirents rounds i = some slot) :
    i ≤ slot ∧ slot < i + rounds ∧ readU32 mem (dirents + 4 * slot) = 0 := by
  induction rounds generalizing i with
  | zero => simp [emptySlot] at hempty
  | succ rounds ih =>
      rw [emptySlot] at hempty
      split at hempty
      next hzero =>
        obtain rfl : i = slot := Option.some.inj hempty
        exact ⟨le_rfl, by omega, hzero⟩
      next =>
        obtain ⟨hfrom, hto, hzero⟩ := ih hempty
        exact ⟨by omega, by omega, hzero⟩

/-- A full directory grows by a slot for the new file. -/
theorem ramfsCreate_full {root : File} {path : CString} {flags ramfsOps newFile : ℕ}
    {kmalloc : ℕ → ℕ} {created : Created} {resized : Resized}
    (hisDir : root.flags &&& fsFileIsDir ≠ 0) (hpath : dropSlash path = name)
    (hname : name.length < nameLength)
    (hfull : emptySlot mem root.privatePtr (root.size / 4) 0 = none)
    (hwords : root.size % 4 = 0) (hsmall : root.size + 4 < 2 ^ 31)
    (hresized : resized = ramfsResize mem root (root.size + 4) kmalloc)
    (hgrew : Grew mem root (root.size + 4) (kmalloc (pagesOf (root.size + 4))) resized)
    (hnotNull : newFile ≠ 0) (hword : newFile < 2 ^ 32)
    (hapart : Apart newFile sizeofVfile (resized.file.privatePtr + root.size) 4)
    (hcreated : created = ramfsCreate mem root path flags ramfsOps kmalloc newFile) :
    created.returned = newFile ∧ created.parent = resized.file ∧
      Linked resized.mem name newFile (resized.file.privatePtr + root.size) created.mem := by
  have hsize : (root.size + 4) % 2 ^ 32 = root.size + 4 := Nat.mod_eq_of_lt (by omega)
  have hlast : 4 * (resized.file.size / 4 - 1) = root.size := by
    rw [hgrew.size]
    omega
  have hreturned : resized.returned ≠ 0 := by
    rw [hgrew.returned]
    omega
  rw [ramfsCreate, if_neg hisDir, hfull] at hcreated
  simp only [hsize, ← hresized, hreturned, hnotNull, if_false, hlast, hpath] at hcreated
  subst hcreated
  exact ⟨rfl, rfl, (linked_page hnotNull hword hname hapart).blockSize hname hapart⟩

/-- An empty slot is filled. -/
theorem ramfsCreate_slot {root : File} {path : CString} {flags ramfsOps newFile slot : ℕ}
    {kmalloc : ℕ → ℕ} {created : Created} (hisDir : root.flags &&& fsFileIsDir ≠ 0)
    (hpath : dropSlash path = name) (hname : name.length < nameLength)
    (hempty : emptySlot mem root.privatePtr (root.size / 4) 0 = some slot)
    (hnotNull : newFile ≠ 0) (hword : newFile < 2 ^ 32)
    (hapart : Apart newFile sizeofVfile (root.privatePtr + 4 * slot) 4)
    (hcreated : created = ramfsCreate mem root path flags ramfsOps kmalloc newFile) :
    created.returned = newFile ∧ created.parent = root ∧
      Linked mem name newFile (root.privatePtr + 4 * slot) created.mem := by
  rw [ramfsCreate, if_neg hisDir, hempty] at hcreated
  simp only [hpath] at hcreated
  subst hcreated
  exact ⟨rfl, rfl, linked_page hnotNull hword hname hapart⟩

end KimisOS.RamData
