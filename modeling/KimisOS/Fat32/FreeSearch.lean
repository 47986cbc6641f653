import KimisOS.Fat32.Accessed

/-!
# The search for a free cluster

`fat32_get_free_cluster` looks at the entries from the hint up to the number of
data clusters.  It does not start again below the hint, which every set moves, and
as numbering starts at 2 it never looks at the last two clusters.
-/

namespace KimisOS.Fat32

/-- The data clusters of a volume have the numbers 2 to `clusters + 1`, which are
cluster numbers of FAT32. -/
structure DataClusters (bpb : Bpb) (clusters : ℕ) : Prop where
  perCluster : 1 ≤ bpb.sectorsPerCluster
  sectorCount : bpb.sectorCount < 2 ^ 32
  fits : bpb.reservedSectors + bpb.fatCount * bpb.sectorsPerFat ≤ bpb.sectorCount
  clusterCount : clusters =
    (bpb.sectorCount - (bpb.reservedSectors + bpb.fatCount * bpb.sectorsPerFat)) /
      bpb.sectorsPerCluster
  numbers : clusters + 2 ≤ 2 ^ 28

theorem DataClusters.entryCount {bpb : Bpb} {clusters : ℕ}
    (hdata : DataClusters bpb clusters) : bpb.entryCount = clusters := by
  have hfits := hdata.fits
  have hcount := hdata.sectorCount
  rw [Bpb.entryCount, hdata.clusterCount,
    Nat.mod_eq_of_lt (show bpb.reservedSectors + bpb.fatCount * bpb.sectorsPerFat < 2 ^ 32
      by omega)]
  congr 1
  omega

/-! ## Histories -/

/-- The calls on the table of a mount. -/
inductive FatCall where
  | getNext (index : ℕ)
  | setNext (index : ℕ) (value : UInt32)
  | getFree

/-- The entry that a call is given has a cluster number. -/
def FatCall.Numbered : FatCall → Prop
  | .getNext index => index < 2 ^ 28
  | .setNext index _ => index < 2 ^ 28
  | .getFree => True

/-- The volume that a call leaves, without what it returns. -/
def leftBy (result : Volume × ℕ) : Volume := result.1

theorem leftBy_eq (result : Volume × ℕ) : leftBy result = result.1 := rfl

def Volume.after (vol : Volume) : FatCall → Volume
  | .getNext index => leftBy (fat32GetNextCluster vol index)
  | .setNext index value => fat32SetNextCluster vol index value.toNat
  | .getFree => leftBy (fat32GetFreeCluster vol)

@[simp]
theorem Volume.after_getNext (vol : Volume) (index : ℕ) :
    vol.after (.getNext index) = leftBy (fat32GetNextCluster vol index) := rfl

@[simp]
theorem Volume.after_setNext (vol : Volume) (index : ℕ) (value : UInt32) :
    vol.after (.setNext index value) = fat32SetNextCluster vol index value.toNat := rfl

@[simp]
theorem Volume.after_getFree (vol : Volume) :
    vol.after .getFree = leftBy (fat32GetFreeCluster vol) := rfl

/-- The search is complete. -/
structure FindsFree (clusters : ℕ) (vol : Volume) : Prop where
  found : ∀ cluster, 2 ≤ cluster → cluster < clusters + 2 → fatEntry vol cluster = 0 →
    2 ≤ (fat32GetFreeCluster vol).2 ∧ (fat32GetFreeCluster vol).2 < clusters + 2 ∧
      fatEntry vol (fat32GetFreeCluster vol).2 = 0
  full : (fat32GetFreeCluster vol).2 = 0 →
    ∀ cluster, 2 ≤ cluster → cluster < clusters + 2 → fatEntry vol cluster ≠ 0

/-- No cluster is free, or one is where the search looks, and no reserved entry that
is free comes before it. -/
def SearchReaches (clusters : ℕ) (vol : Volume) : Prop :=
  (∀ cluster, 2 ≤ cluster → cluster < clusters + 2 → fatEntry vol cluster ≠ 0) ∨
    ((∃ cluster, 2 ≤ cluster ∧ vol.mount.fatSearchStart ≤ cluster ∧ cluster < clusters ∧
        fatEntry vol cluster = 0) ∧
      ∀ reserved < 2, vol.mount.fatSearchStart ≤ reserved → fatEntry vol reserved ≠ 0)

/-! ## One call -/

section Search

variable {table : ℕ → ℕ} {rounds i : ℕ}

/-- With a free entry in reach the search ends there or before. -/
theorem firstFree_le {free : ℕ} (hle : i ≤ free) (hlt : free < i + rounds)
    (hfree : table free = 0) :
    i ≤ firstFree table rounds i ∧ firstFree table rounds i ≤ free ∧
      table (firstFree table rounds i) = 0 := by
  induction rounds generalizing i with
  | zero => omega
  | succ rounds ih =>
      rw [firstFree]
      split
      case isTrue hzero => exact ⟨le_rfl, hle, hzero⟩
      case isFalse hused =>
        have hne : i ≠ free := fun heq => hused (heq ▸ hfree)
        obtain ⟨hlow, hhigh, hzero⟩ := @ih (i + 1) (by omega) (by omega)
        exact ⟨by omega, hhigh, hzero⟩

/-- Nothing before the entry that is found is free. -/
theorem firstFree_before {j : ℕ} (hle : i ≤ j) (hlt : j < firstFree table rounds i) :
    table j ≠ 0 := by
  induction rounds generalizing i with
  | zero => exact absurd hlt (Nat.not_lt_zero j)
  | succ rounds ih =>
      rw [firstFree] at hlt
      split at hlt
      case isTrue => omega
      case isFalse hused =>
        rcases Nat.eq_or_lt_of_le hle with rfl | hmore
        · exact hused
        · exact ih hmore hlt

end Search

section Call

variable {vol : Volume} {clusters : ℕ}

theorem CacheInv.accessed {base : Volume} (hcache : CacheInv (2 ^ 28) base)
    (haccessed : Accessed base vol) : CacheInv (2 ^ 28) vol := by
  induction haccessed with
  | refl => exact hcache
  | get _ hindex ih => exact (ih.get hindex).1

/-- What the search returns, and that it keeps the cache. -/
theorem CacheInv.getFree (hcache : CacheInv (2 ^ 28) vol)
    (hdata : DataClusters vol.mount.bpb clusters) :
    (fat32GetFreeCluster vol).2 =
        firstFree (fatEntry vol) (clusters - vol.mount.fatSearchStart)
          vol.mount.fatSearchStart ∧
      CacheInv (2 ^ 28) (fat32GetFreeCluster vol).1 ∧
      (fat32GetFreeCluster vol).1.mount.bpb = vol.mount.bpb := by
  have hnumbers := hdata.numbers
  rw [fat32GetFreeCluster, hdata.entryCount]
  by_cases hstart : vol.mount.fatSearchStart ≤ clusters
  · obtain ⟨hvalue, read, haccessed, hread⟩ := @Accessed.findFree vol vol (2 ^ 28)
      (clusters - vol.mount.fatSearchStart) vol.mount.fatSearchStart .refl hcache (by omega)
    refine ⟨hvalue, ?_⟩
    have hkept := hcache.accessed haccessed
    rcases hread with hread | ⟨start, hread⟩
    · rw [hread]
      exact ⟨hkept, haccessed.geometry.bpb⟩
    · rw [hread]
      exact ⟨⟨hkept.count, hkept.block, hkept.empty, hkept.size, hkept.window, hkept.clean⟩,
        haccessed.geometry.bpb⟩
  · rw [Nat.sub_eq_zero_of_le (by omega)]
    exact ⟨rfl, hcache, rfl⟩

/-- One call finds a free cluster exactly when the search reaches one. -/
theorem CacheInv.findsFree_iff (hcache : CacheInv (2 ^ 28) vol)
    (hdata : DataClusters vol.mount.bpb clusters) :
    FindsFree clusters vol ↔ SearchReaches clusters vol := by
  have hresult := (hcache.getFree hdata).1
  constructor
  · intro hfinds
    by_cases hfull : ∀ cluster, 2 ≤ cluster → cluster < clusters + 2 →
        fatEntry vol cluster ≠ 0
    · exact .inl hfull
    right
    push Not at hfull
    obtain ⟨cluster, hlow, hhigh, hfree⟩ := hfull
    obtain ⟨hfound, -, -⟩ := hfinds.found cluster hlow hhigh hfree
    rw [hresult] at hfound
    obtain ⟨hstart, hend, hzero⟩ := firstFree_spec (show firstFree (fatEntry vol)
      (clusters - vol.mount.fatSearchStart) vol.mount.fatSearchStart ≠ 0 by omega)
    refine ⟨⟨_, hfound, hstart, by omega, hzero⟩, ?_⟩
    intro reserved hreserved hhint
    exact @firstFree_before (fatEntry vol) (clusters - vol.mount.fatSearchStart)
      vol.mount.fatSearchStart reserved hhint (by omega)
  · rintro (hfull | ⟨⟨cluster, hlow, hstart, hhigh, hfree⟩, hreserved⟩)
    · exact ⟨fun cluster hlow hhigh hfree => absurd hfree (hfull cluster hlow hhigh),
        fun _ => hfull⟩
    · obtain ⟨hge, hle, hzero⟩ := @firstFree_le (fatEntry vol)
        (clusters - vol.mount.fatSearchStart) vol.mount.fatSearchStart cluster hstart
        (by omega) hfree
      rw [← hresult] at hge hle hzero
      have hlarge : 2 ≤ (fat32GetFreeCluster vol).2 := by
        by_contra hsmall
        exact hreserved _ (by omega) hge hzero
      exact ⟨fun _ _ _ _ => ⟨hlarge, by omega, hzero⟩, fun hnone => by omega⟩

/-- Every call keeps the cache and the geometry. -/
theorem CacheInv.after {bpb : Bpb} {call : FatCall} (hdata : DataClusters bpb clusters)
    (hcache : CacheInv (2 ^ 28) vol ∧ vol.mount.bpb = bpb) (hcall : call.Numbered) :
    CacheInv (2 ^ 28) (vol.after call) ∧ (vol.after call).mount.bpb = bpb := by
  obtain ⟨hinv, rfl⟩ := hcache
  cases call with
  | getNext index =>
      rw [FatCall.Numbered] at hcall
      obtain ⟨hkept, -, -, hsame, -⟩ := hinv.get hcall
      rw [Volume.after_getNext, leftBy_eq]
      exact ⟨hkept, hsame.bpb⟩
  | setNext index value =>
      rw [FatCall.Numbered] at hcall
      obtain ⟨hkept, -, hsame, -⟩ := hinv.set hcall value.toNat
      rw [Volume.after_setNext]
      exact ⟨hkept, hsame.bpb⟩
  | getFree =>
      rw [Volume.after_getFree, leftBy_eq]
      exact (hinv.getFree hdata).2

/-- What a history keeps. -/
theorem CacheInv.afterAll {bpb : Bpb} {calls : List FatCall}
    (hdata : DataClusters bpb clusters)
    (hcache : CacheInv (2 ^ 28) vol ∧ vol.mount.bpb = bpb)
    (hcalls : ∀ call ∈ calls, call.Numbered) :
    CacheInv (2 ^ 28) (calls.foldl Volume.after vol) ∧
      (calls.foldl Volume.after vol).mount.bpb = bpb := by
  induction calls generalizing vol with
  | nil => exact hcache
  | cons call calls ih =>
      exact ih (CacheInv.after hdata hcache (hcalls call List.mem_cons_self))
        fun later hlater => hcalls later (List.mem_cons_of_mem call hlater)

end Call

/-- After every history of calls on a volume that has just been mounted, whatever its
hint, the search is complete exactly when it reaches a free cluster. -/
theorem freeSearch_complete_iff (vol : Volume) (clusters : ℕ) (calls : List FatCall)
    (hfresh : FreshCache vol.mount)
    (hblock : vol.mount.blockSizeBytes = vol.mount.bpb.bytesPerSector)
    (hdata : DataClusters vol.mount.bpb clusters)
    (hcalls : ∀ call ∈ calls, call.Numbered) :
    FindsFree clusters (calls.foldl Volume.after vol) ↔
      SearchReaches clusters (calls.foldl Volume.after vol) := by
  obtain ⟨hcache, hbpb⟩ := CacheInv.afterAll hdata
    ⟨hfresh.inv (le_refl (2 ^ 28)) (Mount.findsTable_of_block hblock), rfl⟩ hcalls
  rw [← hbpb] at hdata
  exact hcache.findsFree_iff hdata

def tenClustersBpb : Bpb := ⟨512, 1, 1, 1, 12, 1⟩

theorem tenClustersBpb_data : DataClusters tenClustersBpb 10 :=
  ⟨by decide, by decide, by decide, by decide, by decide⟩

/-- A volume of ten clusters on a device of zeros, with a hint. -/
def tenClusters (hint : ℕ) : Volume :=
  { zeroVolume with mount := { zeroVolume.mount with
      bpb := tenClustersBpb
      fatSearchStart := hint } }

/-- The search that starts at the first cluster of a free volume. -/
theorem freeSearch_complete_first : FindsFree 10 (tenClusters 2) := by
  refine (freeSearch_complete_iff (tenClusters 2) 10 [] ⟨rfl, rfl⟩ rfl
    tenClustersBpb_data (by simp)).mpr (.inr ⟨⟨2, by decide, by decide, by decide, by decide⟩, ?_⟩)
  intro reserved hreserved hhint
  exact absurd (show 2 ≤ reserved from hhint) (by omega)

/-- With the hint 0xFFFFFFFF nothing is found on an empty volume. -/
theorem freeSearch_unknown_hint :
    (fat32GetFreeCluster (tenClusters 0xffffffff)).2 = 0 ∧
      ¬ FindsFree 10 (tenClusters 0xffffffff) := by
  have hnone : (fat32GetFreeCluster (tenClusters 0xffffffff)).2 = 0 := by
    rw [fat32GetFreeCluster, show (tenClusters 0xffffffff).mount.bpb.entryCount = 10 from
      tenClustersBpb_data.entryCount,
      Nat.sub_eq_zero_of_le (by decide)]
    rfl
  refine ⟨hnone, ?_⟩
  intro hfinds
  exact hfinds.full hnone 2 (by decide) (by decide) (by decide)

end KimisOS.Fat32
