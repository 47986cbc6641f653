import KimisOS.Fat32.Integrity

/-!
# Where the driver looks for the table

The offset of the table is computed with the block size of the device file, the
places of the clusters with the sectors of the parameter block.  On a device with
other blocks the window that covers the table is not the table, and a write that
loads it loses the chains.
-/

namespace KimisOS.Fat32

open KimisOS.ByteStore

/-- The table behind a write is well formed; the file has its old clusters and
then some that were free, and every other chain is as before. -/
def KeepsChains {File : Type} [DecidableEq File] (malloc : ℕ → Bool) (clusters : ℕ)
    (vol : Volume) (heads : File → ℕ) (chains : File → List ℕ) (f : File) (file : OpenFile)
    (buffer : ℕ → UInt8) (offset count : ℕ) : Prop :=
  ∃ added : List ℕ,
    (∀ cluster ∈ added, fatEntry vol cluster = 0) ∧
    WellFormed (fatEntry (fat32Write malloc vol file buffer offset count).vol) (clusters + 2)
      (Function.update heads f
        (fat32Write malloc vol file buffer offset count).file.firstCluster)
      (Function.update chains f (chains f ++ added))

/-- A mounted volume, on any device, whose cache agrees with the table. -/
structure InUse (bpb : Bpb) (clusters : ℕ) (vol : Volume) : Prop where
  bpb_eq : vol.mount.bpb = bpb
  fatStart : vol.mount.fatStartSector = bpb.reservedSectors
  dataStart : vol.mount.dataStartSector =
    bpb.reservedSectors + bpb.fatCount * bpb.sectorsPerFat
  empty : vol.mount.fatCacheAllocated = false → vol.mount.fatCacheSize = 0
  size : vol.mount.fatCacheAllocated = true → vol.mount.fatCacheSize = 16384
  window : vol.mount.fatCacheAllocated = true → ∃ index < clusters + 2,
    vol.mount.fatCacheStart = index / 16384 * 16384
  clean : vol.mount.fatCacheAllocated = true → vol.mount.cacheDirty = false →
    ∀ index < clusters + 2, fat32CheckBounds vol.mount index = true →
      vol.mount.cached index = diskEntry vol index

/-- On devices with such blocks every write to a file with an entry keeps the
chains and the agreement of the cache. -/
def AllKept (bpb : Bpb) (block clusters : ℕ) : Prop :=
  ∀ (File : Type) [DecidableEq File] (malloc : ℕ → Bool) (vol : Volume) (heads : File → ℕ)
    (chains : File → List ℕ) (f d : File) (file : OpenFile) (buffer : ℕ → UInt8)
    (offset count : ℕ), InUse bpb clusters vol → vol.mount.blockSizeBytes = block →
    WellFormed (fatEntry vol) (clusters + 2) heads chains →
    file.firstCluster = heads f → EntryIn bpb chains d file →
      KeepsChains malloc clusters vol heads chains f file buffer offset count ∧
        InUse bpb clusters (fat32Write malloc vol file buffer offset count).vol

/-! ## The table is found -/

section Found

variable {bpb : Bpb} {block clusters : ℕ} {vol : Volume}

theorem InUse.consistent (hvol : InUse bpb clusters vol) (hgeo : Geometry bpb clusters)
    (hfound : bpb.reservedSectors * vol.mount.blockSizeBytes % 2 ^ 32 =
      bpb.reservedSectors * bpb.bytesPerSector % 2 ^ 32) : Consistent bpb clusters vol := by
  have hmounted : Mounted bpb vol.mount := ⟨hvol.bpb_eq, hfound, hvol.fatStart, hvol.dataStart⟩
  have hcount := hgeo.clusters_lt
  exact ⟨hgeo, hmounted, ⟨by omega, hmounted.findsTable, hvol.empty, hvol.size, hvol.window,
    hvol.clean⟩⟩

theorem Consistent.inUse (hconsistent : Consistent bpb clusters vol) : InUse bpb clusters vol :=
  ⟨hconsistent.mounted.bpb_eq, hconsistent.mounted.fatStart, hconsistent.mounted.dataStart,
    hconsistent.cache.empty, hconsistent.cache.size, hconsistent.cache.window,
    hconsistent.cache.clean⟩

theorem allKept_of_found (hgeo : Geometry bpb clusters)
    (hfound : bpb.reservedSectors * block % 2 ^ 32 =
      bpb.reservedSectors * bpb.bytesPerSector % 2 ^ 32) : AllKept bpb block clusters := by
  intro File _ malloc vol heads chains f d file buffer offset count hvol hblock hwell hfirst
    hentry
  rw [← hblock] at hfound
  obtain ⟨hconsistent, hkept⟩ := fat32Write_keeps_chains malloc bpb clusters vol heads chains f d
    file buffer offset count (hvol.consistent hgeo hfound) hwell hfirst hentry
  exact ⟨hkept, hconsistent.inUse⟩

end Found

/-! ## The table is not found -/

/-- A device of ones, but for the high byte of one entry. -/
def markAt (place : ℕ) : ℕ → UInt8 := fun a => if a = place + 3 then 0xF0 else 1

theorem toNat_markAt (place a : ℕ) :
    (markAt place a).toNat = if a = place + 3 then 240 else 1 := by
  rw [markAt]
  split <;> rfl

theorem readU32_markAt_ne_zero (place a : ℕ) : readU32 (markAt place) a ≠ 0 := by
  have hfirst := toNat_markAt place a
  rw [readU32]
  split at hfirst <;> omega

/-- Only the marked entry ends a chain. -/
theorem readU32_markAt_iff (place a : ℕ) :
    fat32EocMin ≤ readU32 (markAt place) a ↔ a = place := by
  simp only [readU32, toNat_markAt, fat32EocMin]
  split_ifs <;> omega

/-- A directory has the marked cluster, and a file none. -/
def lostCluster (clusters : ℕ) : ℕ := max 2 (clusters - 1)

def lostChains (clusters : ℕ) : Bool → List ℕ
  | true => [lostCluster clusters]
  | false => []

def lostFile (clusters : ℕ) : OpenFile where
  firstCluster := 0
  sizeBytes := 0
  fileFlags := 0
  direntCluster := lostCluster clusters
  direntOffset := 0

/-- A volume that has just been mounted, whose search looks at one entry. -/
def lostVolume (bpb : Bpb) (block clusters : ℕ) : Volume where
  mount :=
    { bpb := bpb
      blockSizeBytes := block
      cacheDirty := false
      fatSearchStart := clusters - 1
      fatStartSector := bpb.reservedSectors
      dataStartSector := bpb.reservedSectors + bpb.fatCount * bpb.sectorsPerFat
      fatCacheStart := 0
      fatCacheSize := 0
      fatCacheAllocated := false
      fatCache := fun _ => 0 }
  device := markAt (bpb.reservedSectors * bpb.bytesPerSector + 4 * lostCluster clusters)

section Lost

variable {bpb : Bpb} {block clusters : ℕ}

theorem lostVolume_inUse (bpb : Bpb) (block clusters : ℕ) :
    InUse bpb clusters (lostVolume bpb block clusters) := by
  refine ⟨rfl, rfl, rfl, fun _ => rfl, ?_, ?_, ?_⟩
  all_goals
    intro hallocated
    cases hallocated

theorem lostVolume_entry (hgeo : Geometry bpb clusters) {index : ℕ}
    (hindex : index < clusters + 2) :
    fatEntry (lostVolume bpb block clusters) index =
      readU32 (lostVolume bpb block clusters).device
        (bpb.reservedSectors * bpb.bytesPerSector + 4 * index) := by
  have hbefore := hgeo.table_before
  have hbelow := hgeo.below
  have huncovered : ¬ fat32CheckBounds (lostVolume bpb block clusters).mount index = true := by
    simp [fat32CheckBounds, lostVolume]
  rw [fatEntry, if_neg huncovered, diskEntry]
  rw [@Fat32.entryOffset_eq (lostVolume bpb block clusters).mount index]
  · rfl
  · change bpb.reservedSectors * bpb.bytesPerSector + 4 * index < 2 ^ 32
    omega

theorem lostVolume_wellFormed (hgeo : Geometry bpb clusters) (hone : 1 ≤ clusters) :
    WellFormed (fatEntry (lostVolume bpb block clusters)) (clusters + 2)
      (fun x => (lostChains clusters x).headD 0) (lostChains clusters) := by
  have hrange : 2 ≤ lostCluster clusters ∧ lostCluster clusters < clusters + 2 := by
    rw [lostCluster]
    omega
  refine ⟨?_, ?_, ?_, ?_⟩
  · rw [lostVolume_entry hgeo (by omega)]
    exact readU32_markAt_ne_zero _ _
  · rw [lostVolume_entry hgeo (by omega)]
    exact readU32_markAt_ne_zero _ _
  · intro x
    cases x with
    | false => exact ⟨rfl, by simp [lostChains], List.nodup_nil, by simp [lostChains],
        by simp [lostChains]⟩
    | true =>
        refine ⟨rfl, ?_, List.nodup_singleton _, ?_, ?_⟩
        · intro cluster hmem
          rw [List.mem_singleton.mp hmem]
          exact hrange
        · intro p cluster next _ hnext
          simp [lostChains] at hnext
        · intro last hlast
          obtain rfl : lostCluster clusters = last := Option.some.inj hlast
          rw [lostVolume_entry hgeo hrange.2]
          exact (readU32_markAt_iff _ _).mpr rfl
  · intro x y hxy
    cases x with
    | false => exact List.disjoint_nil_left _
    | true =>
        cases y with
        | false => exact List.disjoint_nil_right _
        | true => exact absurd rfl hxy

/-- The search loads a window and finds nothing. -/
theorem lostVolume_write (hgeo : Geometry bpb clusters) (hone : 1 ≤ clusters)
    (malloc : ℕ → Bool) (buffer : ℕ → UInt8) (offset count : ℕ) :
    fat32Write malloc (lostVolume bpb block clusters) (lostFile clusters) buffer offset count =
      ⟨recacheFat32Table (lostVolume bpb block clusters) (clusters - 1), lostFile clusters,
        some 0⟩ := by
  have hprobe : (fat32GetNextCluster (lostVolume bpb block clusters)
      (lostVolume bpb block clusters).mount.fatSearchStart).2 ≠ 0 :=
    readU32_markAt_ne_zero _ _
  have hfree : fat32GetFreeCluster (lostVolume bpb block clusters) =
      (recacheFat32Table (lostVolume bpb block clusters) (clusters - 1), 0) := by
    have hrounds : (lostVolume bpb block clusters).mount.bpb.entryCount -
        (lostVolume bpb block clusters).mount.fatSearchStart = 1 := by
      change bpb.entryCount - (clusters - 1) = 1
      rw [hgeo.entryCount_eq]
      omega
    rw [fat32GetFreeCluster, hrounds, findFreeCluster]
    dsimp only
    rw [if_neg hprobe]
    rfl
  have hfirst : firstClusterFor (lostVolume bpb block clusters) (lostFile clusters) =
      (recacheFat32Table (lostVolume bpb block clusters) (clusters - 1),
        lostFile clusters) := by
    rw [firstClusterFor_full rfl (by rw [hfree]), hfree]
  exact fat32Write_noCluster hfirst rfl

/-- In the window the directory has no end. -/
theorem lostVolume_after (hgeo : Geometry bpb clusters) (hone : 1 ≤ clusters)
    (hlost : bpb.reservedSectors * block % 2 ^ 32 ≠
      bpb.reservedSectors * bpb.bytesPerSector % 2 ^ 32) :
    fatEntry (recacheFat32Table (lostVolume bpb block clusters) (clusters - 1))
      (lostCluster clusters) < fat32EocMin := by
  have hbefore := hgeo.table_before
  have hbelow := hgeo.below
  have hfew := hgeo.clusters_lt
  have hwindow : (clusters - 1) / 16384 * 16384 ≤ lostCluster clusters ∧
      lostCluster clusters < (clusters - 1) / 16384 * 16384 + 16384 ∧
      lostCluster clusters < clusters + 2 := by
    rw [lostCluster]
    omega
  have hcovered : fat32CheckBounds
      (recacheFat32Table (lostVolume bpb block clusters) (clusters - 1)).mount
        (lostCluster clusters) = true := by
    rw [recacheFat32Table_eq]
    simp only [fat32CheckBounds, Bool.and_eq_true, bne_iff_ne, decide_eq_true_eq]
    omega
  rw [fatEntry, if_pos hcovered, recacheFat32Table_eq, Mount.cached]
  have hclean : writtenBack (lostVolume bpb block clusters) =
      (lostVolume bpb block clusters).device := if_neg fun h => by cases h.1
  dsimp only
  rw [hclean, readU32_load, ← Nat.not_le]
  refine mt (readU32_markAt_iff _ _).mp ?_
  change (bpb.reservedSectors * block % 2 ^ 32 + (clusters - 1) / 16384 * 16384 * 4) % 2 ^ 32 +
    4 * (lostCluster clusters - (clusters - 1) / 16384 * 16384) ≠ _
  have hwrong := Nat.mod_lt (bpb.reservedSectors * block) (show 0 < 2 ^ 32 by decide)
  generalize bpb.reservedSectors * block % 2 ^ 32 = wrong at *
  generalize bpb.reservedSectors * bpb.bytesPerSector = right at *
  omega

theorem not_allKept (hgeo : Geometry bpb clusters) (hone : 1 ≤ clusters)
    (hlost : bpb.reservedSectors * block % 2 ^ 32 ≠
      bpb.reservedSectors * bpb.bytesPerSector % 2 ^ 32) : ¬ AllKept bpb block clusters := by
  intro hall
  have hsize := hgeo.clusterSize_ge
  obtain ⟨⟨added, -, hwell⟩, -⟩ := hall Bool (fun _ => true) (lostVolume bpb block clusters) _
    (lostChains clusters) false true (lostFile clusters) (fun _ => 0) 0 0
    (lostVolume_inUse bpb block clusters) rfl (lostVolume_wellFormed hgeo hone) rfl
    ⟨rfl, by simp [lostFile, lostChains]⟩
  have hends := (hwell.chain true).ends (lostCluster clusters) rfl
  rw [lostVolume_write hgeo hone] at hends
  exact absurd hends (Nat.not_le.mpr (lostVolume_after hgeo hone hlost))

end Lost

/-- On a volume with clusters all writes keep the chains exactly if the driver finds the
table: its first sector is at the same offset in blocks of the device file as in sectors of
the parameter block. -/
theorem chains_kept_iff (bpb : Bpb) (block clusters : ℕ) (hgeo : Geometry bpb clusters) :
    AllKept bpb block clusters ↔ clusters = 0 ∨
      bpb.reservedSectors * block % 2 ^ 32 =
        bpb.reservedSectors * bpb.bytesPerSector % 2 ^ 32 := by
  constructor
  · intro hall
    by_contra hcases
    rw [not_or] at hcases
    exact not_allKept hgeo (Nat.pos_of_ne_zero hcases.1) hcases.2 hall
  · rintro (rfl | hfound)
    · intro File _ malloc vol heads chains f d file buffer offset count _ _ hwell _ hentry
      -- no directory has a cluster for the entry
      have hrange := (hwell.chain d).range file.direntCluster
        (List.mem_of_getElem? hentry.start)
      omega
    · exact allKept_of_found hgeo hfound

theorem chains_kept_small : AllKept ⟨512, 1, 1, 1, 8, 1⟩ 512 6 := by
  have hgeo : Geometry ⟨512, 1, 1, 1, 8, 1⟩ 6 := smallVolume_consistent.geometry
  exact (chains_kept_iff _ 512 6 hgeo).mpr (.inr rfl)

/-! ## Sectors of two blocks -/

/-- Six clusters of 1024 bytes on a device with blocks of 512 bytes.  The second half of the
boot sector is zero, and the table behind it has a directory in cluster 2. -/
def halfBlocks : Volume where
  mount := { smallVolume.mount with bpb := ⟨1024, 1, 1, 1, 8, 1⟩ }
  device := fun a => if 1024 ≤ a ∧ a < 1036 then if a % 4 = 3 then 0x0F else 0xFF else 0

theorem halfBlocks_wellFormed :
    WellFormed (fatEntry halfBlocks) 8 (fun x => (smallChains x).headD 0) smallChains := by
  refine smallVolume_wellFormed.congr (by decide) ?_
  decide +kernel

/-- The file gets the cluster of the directory. -/
theorem halfBlocks_loses_chains :
    Geometry ⟨1024, 1, 1, 1, 8, 1⟩ 6 ∧ InUse ⟨1024, 1, 1, 1, 8, 1⟩ 6 halfBlocks ∧
      WellFormed (fatEntry halfBlocks) 8 (fun x => (smallChains x).headD 0) smallChains ∧
      EntryIn ⟨1024, 1, 1, 1, 8, 1⟩ smallChains true smallFile ∧
      ¬ KeepsChains (fun _ => true) 6 halfBlocks (fun x => (smallChains x).headD 0)
        smallChains false smallFile (fun _ => 1) 0 10 := by
  have hfresh : halfBlocks.mount.fatCacheAllocated ≠ true := Bool.false_ne_true
  have hgeo : Geometry ⟨1024, 1, 1, 1, 8, 1⟩ 6 := ⟨by decide, by decide, by decide, by decide,
    by decide, by decide, by decide, by decide, 10, by decide⟩
  refine ⟨hgeo, ⟨rfl, rfl, rfl, fun _ => rfl, fun h => absurd h hfresh,
    fun h => absurd h hfresh, fun h => absurd h hfresh⟩, halfBlocks_wellFormed,
    ⟨rfl, by decide⟩, ?_⟩
  rintro ⟨added, hfree, hwell⟩
  have hfirst : (fat32Write (fun _ => true) halfBlocks smallFile (fun _ => 1) 0
      10).file.firstCluster = 2 := by decide +kernel
  have hstarts := (hwell.chain false).starts
  rw [Function.update_self, Function.update_self, hfirst] at hstarts
  cases added with
  | nil => cases hstarts
  | cons head added =>
      obtain rfl : head = 2 := hstarts
      have htaken : fatEntry halfBlocks 2 ≠ 0 := by decide +kernel
      exact htaken (hfree 2 List.mem_cons_self)

end KimisOS.Fat32
