import KimisOS.Bootloader.EndOfChain

/-!
# The entries that the boot loader reads

The table starts behind the reserved sectors of the partition.  A load brings
1024 of its entries into the buffer, and `read_fat` counts 4096 to a block and
sectors from the start of the disc.
-/

namespace KimisOS.Bootloader

open KimisOS.ByteStore

/-- The first sector of the table. -/
def BootBpb.tableSector (boot : BootBpb) : ℕ := boot.partStart + boot.bpb.reservedSectors

/-- The word `k` of what starts at a sector. -/
def sectorWord (disk : ℕ → UInt8) (sector k : ℕ) : ℕ := readU32 disk (512 * sector + 4 * k)

/-- The entry of the table on the disc. -/
def tableEntry (boot : BootBpb) (disk : ℕ → UInt8) (index : ℕ) : ℕ :=
  sectorWord disk boot.tableSector index

/-- Where `read_fat` finds the entry in memory. -/
def entryAddress (index : ℕ) : ℕ := fileTable + 4 * (index % 4096)

/-- The four bytes lie in the buffer of the table. -/
def InFileTable (address : ℕ) : Prop := fileTable ≤ address ∧ address + 4 ≤ fileTable + 4096

/-- A sequence of calls of `read_fat`, with the words that they return. -/
def readFats (boot : BootBpb) (disk : ℕ → UInt8) : Loader → List ℕ → Loader × List ℕ
  | loader, [] => (loader, [])
  | loader, index :: indices =>
      let read := readFat boot disk loader index
      let rest := readFats boot disk read.1 indices
      (rest.1, read.2 :: rest.2)

/-- Every call returns its entry and reads it from the buffer. -/
structure ReadsEntries (boot : BootBpb) (disk : ℕ → UInt8) (loader : Loader)
    (indices : List ℕ) : Prop where
  values : (readFats boot disk loader indices).2 = indices.map (tableEntry boot disk)
  inside : ∀ index ∈ indices, InFileTable (entryAddress index)

/-- The entry is among the first 1024 of a block of 4096, and the word that is
as far behind the sector of the blocks is the same. -/
structure FindsEntry (boot : BootBpb) (disk : ℕ → UInt8) (index : ℕ) : Prop where
  loaded : index % 4096 < 1024
  same : sectorWord disk boot.bpb.reservedSectors (1024 * (index / 4096) + index % 4096) =
    tableEntry boot disk index

/-- The buffer holds the block that `loaded_fat_block` names. -/
def HoldsBlock (boot : BootBpb) (disk : ℕ → UInt8) (loader : Loader) : Prop :=
  ∀ k < 4096, loader.memory (fileTable + k) =
    disk (512 * boot.fatBlockSector loader.loadedFatBlock + k)

section Entries

variable {boot : BootBpb} {disk : ℕ → UInt8} {loader : Loader} {index : ℕ}
  {indices : List ℕ}

theorem readFat_address : (readFat boot disk loader index).2 =
    readU32 (readFat boot disk loader index).1.memory (entryAddress index) := rfl

theorem inFileTable_iff : InFileTable (entryAddress index) ↔ index % 4096 < 1024 := by
  unfold InFileTable entryAddress
  constructor
  · intro hinside
    omega
  · intro hloaded
    omega

theorem holdsBlock_cacheFileTable (hsector : boot.bpb.bytesPerSector = 512) (block : ℕ) :
    HoldsBlock boot disk (cacheFileTable boot disk loader block) := by
  intro k hk
  rw [cacheFileTable, hsector]
  exact store_inside hk

theorem HoldsBlock.readFat (hsector : boot.bpb.bytesPerSector = 512)
    (hholds : HoldsBlock boot disk loader) (index : ℕ) :
    HoldsBlock boot disk (readFat boot disk loader index).1 ∧
      (readFat boot disk loader index).1.loadedFatBlock = index / 4096 := by
  rw [Bootloader.readFat]
  split
  · rename_i hblock
    exact ⟨hholds, hblock.symm⟩
  · exact ⟨holdsBlock_cacheFileTable hsector _, rfl⟩

/-- The sixteen blocks of the indices start at sectors that 32 bits can hold. -/
theorem fatBlockSector_of_lt (hsector : boot.bpb.bytesPerSector = 512)
    (hreserved : boot.bpb.reservedSectors < 2 ^ 16) (hindex : index < 2 ^ 16) :
    boot.fatBlockSector (index / 4096) = 8 * (index / 4096) + boot.bpb.reservedSectors := by
  rw [BootBpb.fatBlockSector, hsector]
  omega

theorem HoldsBlock.readFat_value (hsector : boot.bpb.bytesPerSector = 512)
    (hreserved : boot.bpb.reservedSectors < 2 ^ 16)
    (hholds : HoldsBlock boot disk loader) (hindex : index < 2 ^ 16)
    (hloaded : index % 4096 < 1024) :
    (Bootloader.readFat boot disk loader index).2 =
      sectorWord disk boot.bpb.reservedSectors
        (1024 * (index / 4096) + index % 4096) := by
  obtain ⟨hholds, hblock⟩ := hholds.readFat hsector index
  rw [readFat_address, sectorWord]
  apply readU32_congr
  intro k hk
  have hplace := hholds (4 * (index % 4096) + k) (by omega)
  rw [hblock, fatBlockSector_of_lt hsector hreserved hindex] at hplace
  rw [entryAddress, Nat.add_assoc, hplace]
  congr 1
  omega

theorem HoldsBlock.readFats (hsector : boot.bpb.bytesPerSector = 512)
    (hreserved : boot.bpb.reservedSectors < 2 ^ 16)
    (hindices : ∀ index ∈ indices, index < 2 ^ 16)
    (hloaded : ∀ index ∈ indices, index % 4096 < 1024)
    (hholds : HoldsBlock boot disk loader) :
    (Bootloader.readFats boot disk loader indices).2 =
      indices.map fun index => sectorWord disk boot.bpb.reservedSectors
        (1024 * (index / 4096) + index % 4096) := by
  induction indices generalizing loader with
  | nil => rfl
  | cons first rest ih =>
      have hfirst := hholds.readFat_value hsector hreserved
        (hindices first List.mem_cons_self) (hloaded first List.mem_cons_self)
      have hrest := ih (fun index hmem => hindices index (List.mem_cons_of_mem _ hmem))
        (fun index hmem => hloaded index (List.mem_cons_of_mem _ hmem))
        (hholds.readFat hsector first).1
      rw [Bootloader.readFats, List.map_cons, hfirst, hrest]

/-- Behind `cache_file_table(0)`, a sequence of calls returns the entries exactly
when each of them is where it is looked for. -/
theorem readsEntries_iff (hsector : boot.bpb.bytesPerSector = 512)
    (hreserved : boot.bpb.reservedSectors < 2 ^ 16)
    (hindices : ∀ index ∈ indices, index < 2 ^ 16) :
    ReadsEntries boot disk (cacheFileTable boot disk loader 0) indices ↔
      ∀ index ∈ indices, FindsEntry boot disk index := by
  have hholds : HoldsBlock boot disk (cacheFileTable boot disk loader 0) :=
    holdsBlock_cacheFileTable hsector 0
  constructor
  · intro hreads index hmem
    have hloaded : ∀ index ∈ indices, index % 4096 < 1024 := fun index hmem =>
      inFileTable_iff.mp (hreads.inside index hmem)
    have hvalues := hreads.values
    rw [hholds.readFats hsector hreserved hindices hloaded] at hvalues
    exact ⟨hloaded index hmem, List.map_inj_left.mp hvalues index hmem⟩
  · intro hfinds
    refine ⟨?_, fun index hmem => inFileTable_iff.mpr (hfinds index hmem).loaded⟩
    rw [hholds.readFats hsector hreserved hindices fun index hmem =>
      (hfinds index hmem).loaded]
    exact List.map_inj_left.mpr fun index hmem => (hfinds index hmem).same

/-- On a disc without a partition table these are the entries of the first load. -/
theorem findsEntry_of_lt (hstart : boot.partStart = 0) (hindex : index < 1024) :
    FindsEntry boot disk index := by
  have hsmall : index < 4096 := by omega
  refine ⟨?_, ?_⟩
  · rw [Nat.mod_eq_of_lt hsmall]
    exact hindex
  · rw [tableEntry, BootBpb.tableSector, hstart, Nat.zero_add, Nat.mod_eq_of_lt hsmall,
      Nat.div_eq_of_lt hsmall, Nat.mul_zero, Nat.zero_add]

end Entries

/-! ## A file that lies behind the first load -/

/-- A table in which only the entry 4096 is in use. -/
def lateDisk : ℕ → UInt8 :=
  writeU32 (fun _ => 0) (512 * bootBpb.tableSector + 4 * 4096) fileEnd

theorem lateDisk_entry : tableEntry bootBpb lateDisk 4096 = fileEnd := by
  rw [tableEntry, sectorWord, lateDisk, readU32_writeU32_self]
  rfl

/-- What the boot loader finds for it is the entry 1024. -/
theorem lateDisk_found : sectorWord lateDisk bootBpb.bpb.reservedSectors 1024 = 0 := by
  rw [sectorWord, lateDisk, readU32_writeU32_of_disjoint]
  · rfl
  · exact .inl (by decide)

/-- A table with the chain of the clusters 2 and 3. -/
def chainDisk : ℕ → UInt8 :=
  writeU32 (writeU32 (fun _ => 0) (512 * bootBpb.tableSector + 4 * 2) 3)
    (512 * bootBpb.tableSector + 4 * 3) fileEnd

theorem chainDisk_entries :
    tableEntry bootBpb chainDisk 2 = 3 ∧ tableEntry bootBpb chainDisk 3 = fileEnd := by
  constructor
  · rw [tableEntry, sectorWord, chainDisk, readU32_writeU32_of_disjoint (.inl (by decide)),
      readU32_writeU32_self]
    rfl
  · rw [tableEntry, sectorWord, chainDisk, readU32_writeU32_self]
    rfl

theorem readsEntries_chain : ReadsEntries bootBpb chainDisk
      (cacheFileTable bootBpb chainDisk startLoader 0) [2, 3, 2] ∧
    [2, 3, 2].map (tableEntry bootBpb chainDisk) = [3, fileEnd, 3] := by
  obtain ⟨hsecond, hthird⟩ := chainDisk_entries
  refine ⟨(readsEntries_iff rfl (by decide) (by decide)).mpr ?_, ?_⟩
  · intro index hmem
    have hindex : index < 1024 := by
      revert index
      decide
    exact findsEntry_of_lt rfl hindex
  · simp only [List.map_cons, List.map_nil, hsecond, hthird]

/-- It takes the last cluster of a file for one with the next cluster 0. -/
theorem readsEntries_late : ¬ReadsEntries bootBpb lateDisk
    (cacheFileTable bootBpb lateDisk startLoader 0) [4096] := by
  intro hreads
  have hvalues := hreads.values
  rw [(holdsBlock_cacheFileTable rfl 0).readFats rfl (by decide) (by decide) (by decide)]
    at hvalues
  have hfound : sectorWord lateDisk bootBpb.bpb.reservedSectors 1024 =
      tableEntry bootBpb lateDisk 4096 := (List.cons.inj hvalues).1
  rw [lateDisk_found, lateDisk_entry] at hfound
  exact absurd hfound (by decide)

end KimisOS.Bootloader
