import KimisOS.Fat32.Write

/-!
# The volume without its cache

A flat volume is a table, the bytes of the data area and the search hint.  The
mounted volume shows a flat one: the overlaid table on the entries of its
clusters, and the bytes of the device behind the table, where no window of the
table reaches them.  Each access to the mounted volume is an access to the flat
one.
-/

namespace KimisOS.Fat32

open KimisOS.ByteStore

structure Flat where
  table : ℕ → ℕ
  data : ℕ → UInt8
  search : ℕ

def Flat.set (flat : Flat) (index value : ℕ) : Flat :=
  { flat with table := Function.update flat.table index value, search := index }

def Flat.write (flat : Flat) (bytes : ℕ → UInt8) (offset count : ℕ) : Flat :=
  { flat with data := store flat.data offset bytes count }

/-- The last cluster is linked to a free one. -/
def Flat.link (flat : Flat) (last cluster : ℕ) : Flat :=
  (flat.set last cluster).set cluster fat32Eoc

/-- Where the data area starts on the device. -/
def Bpb.dataOffset (bpb : Bpb) : ℕ :=
  (bpb.reservedSectors + bpb.fatCount * bpb.sectorsPerFat) * bpb.bytesPerSector

/-- A volume of `clusters` data clusters below 4 GiB, with a table entry for
each of them. -/
structure Geometry (bpb : Bpb) (clusters : ℕ) : Prop where
  fatCount : 1 ≤ bpb.fatCount
  sector : 512 ≤ bpb.bytesPerSector
  perCluster : 1 ≤ bpb.sectorsPerCluster
  sectorCount : bpb.sectorCount < 2 ^ 32
  fits : bpb.reservedSectors + bpb.fatCount * bpb.sectorsPerFat ≤ bpb.sectorCount
  clusterCount : clusters =
    (bpb.sectorCount - (bpb.reservedSectors + bpb.fatCount * bpb.sectorsPerFat)) /
      bpb.sectorsPerCluster
  fatSize : 4 * (clusters + 2) ≤ bpb.sectorsPerFat * bpb.bytesPerSector
  below : bpb.dataOffset + clusters * bpb.clusterSizeBytes ≤ 2 ^ 32
  powerOfTwo : ∃ k, bpb.clusterSizeBytes = 2 ^ k

/-- The mount record as `fat32_mount` fills it in. -/
structure Mounted (bpb : Bpb) (mount : Mount) : Prop where
  bpb_eq : mount.bpb = bpb
  block : bpb.reservedSectors * mount.blockSizeBytes % 2 ^ 32 =
    bpb.reservedSectors * bpb.bytesPerSector % 2 ^ 32
  fatStart : mount.fatStartSector = bpb.reservedSectors
  dataStart : mount.dataStartSector =
    bpb.reservedSectors + bpb.fatCount * bpb.sectorsPerFat

/-- The byte of the data area is out of reach of the windows of the table. -/
def OutOfReach (bpb : Bpb) (clusters a : ℕ) : Prop :=
  clusters + 2 ≤ 16384 ∨
    bpb.reservedSectors * bpb.bytesPerSector + ((clusters + 1) / 16384 + 1) * 65536 ≤ a

structure Shows (bpb : Bpb) (clusters : ℕ) (vol : Volume) (flat : Flat) : Prop where
  geometry : Geometry bpb clusters
  mounted : Mounted bpb vol.mount
  cache : CacheInv (clusters + 2) vol
  entries : ∀ index < clusters + 2, fatEntry vol index = flat.table index
  bytes : ∀ a, bpb.dataOffset ≤ a → OutOfReach bpb clusters a → vol.device a = flat.data a
  search : vol.mount.fatSearchStart = flat.search

section Geometry

variable {bpb : Bpb} {clusters : ℕ}

theorem Geometry.clusterSize_ge (hgeo : Geometry bpb clusters) :
    512 ≤ bpb.clusterSizeBytes := by
  have hsector := hgeo.sector
  calc 512 ≤ bpb.bytesPerSector := hsector
    _ = bpb.bytesPerSector * 1 := (Nat.mul_one _).symm
    _ ≤ bpb.bytesPerSector * bpb.sectorsPerCluster :=
        Nat.mul_le_mul_left _ hgeo.perCluster

theorem Geometry.clusters_lt (hgeo : Geometry bpb clusters) : clusters ≤ 2 ^ 23 := by
  have hbelow := hgeo.below
  have hsize : clusters * 512 ≤ clusters * bpb.clusterSizeBytes :=
    Nat.mul_le_mul_left _ hgeo.clusterSize_ge
  omega

/-- Clusters are no markers of the end of a chain. -/
theorem Geometry.count_le (hgeo : Geometry bpb clusters) : clusters + 2 ≤ fat32EocMin := by
  have hclusters := hgeo.clusters_lt
  unfold fat32EocMin
  omega

theorem Geometry.entryCount_eq (hgeo : Geometry bpb clusters) :
    bpb.entryCount = clusters := by
  have hfits := hgeo.fits
  have hcount := hgeo.sectorCount
  rw [hgeo.clusterCount, Bpb.entryCount]
  generalize bpb.reservedSectors + bpb.fatCount * bpb.sectorsPerFat = start at *
  congr 1
  omega

/-- The table ends before the data area. -/
theorem Geometry.table_before (hgeo : Geometry bpb clusters) :
    bpb.reservedSectors * bpb.bytesPerSector + 4 * (clusters + 2) ≤ bpb.dataOffset := by
  have hone : bpb.sectorsPerFat ≤ bpb.fatCount * bpb.sectorsPerFat :=
    Nat.le_mul_of_pos_left _ hgeo.fatCount
  have hfat : bpb.sectorsPerFat * bpb.bytesPerSector ≤
      bpb.fatCount * bpb.sectorsPerFat * bpb.bytesPerSector :=
    Nat.mul_le_mul_right _ hone
  have hsize := hgeo.fatSize
  rw [Bpb.dataOffset, Nat.add_mul]
  omega

/-- The size of a cluster is a power of two, and a volume with a chain has less than
`2 ^ 32` bytes of data. -/
theorem Geometry.clusterSize_le (hgeo : Geometry bpb clusters) {table : ℕ → ℕ} {head : ℕ}
    {chain : List ℕ} (hne : chain ≠ []) (hchain : IsChain table (clusters + 2) head chain) :
    bpb.clusterSizeBytes ≤ 2 ^ 31 := by
  obtain ⟨k, hk⟩ := hgeo.powerOfTwo
  have hbelow := hgeo.below
  have htable := hgeo.table_before
  have hrange := hchain.range _ (List.head_mem hne)
  have hone : bpb.clusterSizeBytes ≤ clusters * bpb.clusterSizeBytes :=
    Nat.le_mul_of_pos_left _ (by omega)
  rw [hk] at hone hbelow ⊢
  have hlt : 2 ^ k < 2 ^ 32 := by omega
  exact Nat.pow_le_pow_right (by decide)
    (Nat.le_of_lt_succ ((Nat.pow_lt_pow_iff_right (by decide)).mp hlt))

variable {mount : Mount}

/-- The entries of the clusters follow each other on the device. -/
theorem Mounted.congr {vol vol' : Volume} (hmounted : Mounted bpb vol.mount)
    (hgeometry : SameGeometry vol vol') : Mounted bpb vol'.mount where
  bpb_eq := hgeometry.bpb.trans hmounted.bpb_eq
  block := by rw [hgeometry.blockSizeBytes, hmounted.block]
  fatStart := hgeometry.fatStartSector.trans hmounted.fatStart
  dataStart := hgeometry.dataStartSector.trans hmounted.dataStart

theorem Mounted.findsTable (hmounted : Mounted bpb mount) : mount.FindsTable := by
  rw [Mount.FindsTable, hmounted.fatStart, hmounted.bpb_eq, hmounted.block]

theorem Mounted.entryOffset_eq (hmounted : Mounted bpb mount)
    (hgeo : Geometry bpb clusters) {index : ℕ} (hindex : index < clusters + 2) :
    entryOffset mount index =
      bpb.reservedSectors * bpb.bytesPerSector + 4 * index := by
  have hbefore := hgeo.table_before
  have hbelow := hgeo.below
  have heq := @Fat32.entryOffset_eq mount index
  rw [hmounted.bpb_eq, hmounted.fatStart] at heq
  exact heq (by omega)

theorem Mounted.sheltered (hmounted : Mounted bpb mount)
    (hgeo : Geometry bpb clusters) {a : ℕ} (ha : OutOfReach bpb clusters a) :
    Sheltered (clusters + 2) mount a := by
  refine ha.imp id ?_
  intro hbehind index hindex
  right
  have hbefore := hgeo.table_before
  have hbelow := hgeo.below
  rw [Mount.windowOffset, hmounted.fatStart, hmounted.block]
  generalize bpb.reservedSectors * bpb.bytesPerSector = start at *
  omega

/-- The bytes of a cluster follow those of the cluster before it. -/
theorem Mounted.clusterOffset_eq (hmounted : Mounted bpb mount)
    (hgeo : Geometry bpb clusters) {cluster : ℕ}
    (hrange : 2 ≤ cluster ∧ cluster < clusters + 2) :
    mount.clusterOffset cluster =
      bpb.dataOffset + (cluster - 2) * bpb.clusterSizeBytes := by
  have hbelow := hgeo.below
  have hclusters := hgeo.clusters_lt
  have hsize := hgeo.clusterSize_ge
  have hlast : (cluster - 2) * bpb.clusterSizeBytes + bpb.clusterSizeBytes ≤
      clusters * bpb.clusterSizeBytes := by
    rw [← Nat.succ_mul]
    exact Nat.mul_le_mul_right _ (by omega)
  have hshift : (cluster + 2 ^ 32 - 2) % 2 ^ 32 = cluster - 2 := by omega
  have hstart : mount.dataStartSector * mount.bpb.bytesPerSector = bpb.dataOffset := by
    rw [hmounted.bpb_eq, hmounted.dataStart, Bpb.dataOffset]
  rw [Mount.clusterOffset, hshift, hstart, hmounted.bpb_eq]
  omega

end Geometry

/-! ## Accesses -/

section Shows

variable {bpb : Bpb} {clusters : ℕ} {vol : Volume} {flat : Flat}

theorem Shows.clusterOffset_eq (hshows : Shows bpb clusters vol flat) {cluster : ℕ}
    (hrange : 2 ≤ cluster ∧ cluster < clusters + 2) :
    vol.mount.clusterOffset cluster =
      bpb.dataOffset + (cluster - 2) * bpb.clusterSizeBytes :=
  hshows.mounted.clusterOffset_eq hshows.geometry hrange

theorem Shows.get (hshows : Shows bpb clusters vol flat) {index : ℕ}
    (hindex : index < clusters + 2) :
    Shows bpb clusters (fat32GetNextCluster vol index).1 flat ∧
      (fat32GetNextCluster vol index).2 = flat.table index := by
  obtain ⟨hcache, hvalue, hsame, hgeometry, hsearch, hdevice⟩ := hshows.cache.get hindex
  have hmounted := hshows.mounted
  refine ⟨⟨hshows.geometry, ⟨?_, ?_, ?_, ?_⟩, hcache, ?_, ?_, ?_⟩, ?_⟩
  · rw [hgeometry.bpb, hmounted.bpb_eq]
  · rw [hgeometry.blockSizeBytes, hmounted.block]
  · rw [hgeometry.fatStartSector, hmounted.fatStart]
  · rw [hgeometry.dataStartSector, hmounted.dataStart]
  · intro other hother
    rw [hsame other hother, hshows.entries other hother]
  · intro a ha hreach
    rw [hdevice a (hmounted.sheltered hshows.geometry hreach), hshows.bytes a ha hreach]
  · rw [hsearch, hshows.search]
  · rw [hvalue, hshows.entries index hindex]

/-- Reading the entry of a cluster of a chain. -/
theorem Shows.next (hshows : Shows bpb clusters vol flat) {head p current : ℕ}
    {chain : List ℕ} (hchain : IsChain flat.table (clusters + 2) head chain)
    (hp : chain[p]? = some current) :
    Shows bpb clusters (fat32GetNextCluster vol current).1 flat ∧
      (((fat32GetNextCluster vol current).2 < fat32EocMin ∧
          chain[p + 1]? = some (fat32GetNextCluster vol current).2) ∨
        (fat32EocMin ≤ (fat32GetNextCluster vol current).2 ∧ p + 1 = chain.length)) := by
  obtain ⟨hread, hvalue⟩ := hshows.get (hchain.range current (List.mem_of_getElem? hp)).2
  rw [hvalue]
  exact ⟨hread, hchain.next hshows.geometry.count_le hp⟩

theorem Shows.set (hshows : Shows bpb clusters vol flat) {index : ℕ}
    (hindex : index < clusters + 2) {value : ℕ} (hvalue : value < 2 ^ 32) :
    Shows bpb clusters (fat32SetNextCluster vol index value) (flat.set index value) := by
  obtain ⟨hcache, hsame, hgeometry, hsearch, hdevice⟩ := hshows.cache.set hindex value
  have hmounted := hshows.mounted
  refine ⟨hshows.geometry, ⟨?_, ?_, ?_, ?_⟩, hcache, ?_, ?_, hsearch⟩
  · rw [hgeometry.bpb, hmounted.bpb_eq]
  · rw [hgeometry.blockSizeBytes, hmounted.block]
  · rw [hgeometry.fatStartSector, hmounted.fatStart]
  · rw [hgeometry.dataStartSector, hmounted.dataStart]
  · intro other hother
    change _ = Function.update flat.table index value other
    rw [hsame other hother, Function.update_apply, hshows.entries other hother,
      Nat.mod_eq_of_lt hvalue]
  · intro a ha hreach
    rw [hdevice a (hmounted.sheltered hshows.geometry hreach), hshows.bytes a ha hreach]
    rfl

/-- A write to the data area does not reach the table. -/
theorem Shows.fwrite (hshows : Shows bpb clusters vol flat) (bytes : ℕ → UInt8)
    {offset : ℕ} (count : ℕ) (hoffset : bpb.dataOffset ≤ offset) :
    Shows bpb clusters (fwrite vol bytes offset count) (flat.write bytes offset count) := by
  have hdisk : ∀ index < clusters + 2,
      diskEntry (Fat32.fwrite vol bytes offset count) index = diskEntry vol index := by
    intro index hindex
    have hplace := hshows.mounted.entryOffset_eq hshows.geometry hindex
    have hbefore := hshows.geometry.table_before
    apply readU32_store_outside
    change entryOffset vol.mount index + 4 ≤ offset ∨ _
    rw [hplace]
    omega
  have hcache := hshows.cache
  refine ⟨hshows.geometry, hshows.mounted, ⟨hcache.count, hcache.block, hcache.empty,
    hcache.size, hcache.window, ?_⟩, ?_, ?_, hshows.search⟩
  · intro halloc hclean index hindex hcovered
    rw [hdisk index hindex]
    exact hcache.clean halloc hclean index hindex hcovered
  · intro index hindex
    rw [fatEntry, hdisk index hindex]
    exact hshows.entries index hindex
  · intro a ha hreach
    change store vol.device offset bytes count a = store flat.data offset bytes count a
    rw [store, store, hshows.bytes a ha hreach]

/-- The first free entry of the table from the hint on. -/
def Flat.IsNextFree (flat : Flat) (clusters cluster : ℕ) : Prop :=
  flat.search ≤ cluster ∧ cluster < clusters ∧ flat.table cluster = 0 ∧
    ∀ other, flat.search ≤ other → other < cluster → flat.table other ≠ 0

/-- No entry of the table from the hint on is free. -/
def Flat.Full (flat : Flat) (clusters : ℕ) : Prop :=
  ∀ other, flat.search ≤ other → other < clusters → flat.table other ≠ 0

theorem Shows.findFree {rounds i : ℕ} (hshows : Shows bpb clusters vol flat)
    (hrounds : rounds = clusters - i) (hstart : flat.search ≤ i)
    (hpassed : ∀ other, flat.search ≤ other → other < i → flat.table other ≠ 0) :
    (∃ cluster, (findFreeCluster rounds vol i).2 = cluster ∧
      flat.IsNextFree clusters cluster ∧
      Shows bpb clusters (findFreeCluster rounds vol i).1
        { flat with search := cluster }) ∨
    ((findFreeCluster rounds vol i).2 = 0 ∧ flat.Full clusters ∧
      Shows bpb clusters (findFreeCluster rounds vol i).1 flat) := by
  induction rounds generalizing vol i with
  | zero =>
      right
      refine ⟨rfl, ?_, hshows⟩
      intro other hother hlt
      exact hpassed other hother (by omega)
  | succ rounds ih =>
      have hindex : i < clusters + 2 := by omega
      obtain ⟨hget, hvalue⟩ := hshows.get hindex
      simp only [findFreeCluster, hvalue]
      by_cases hfree : flat.table i = 0
      · left
        rw [if_pos hfree]
        refine ⟨i, rfl, ⟨hstart, by omega, hfree, hpassed⟩, ?_⟩
        exact ⟨hget.geometry, ⟨hget.mounted.bpb_eq, hget.mounted.block,
          hget.mounted.fatStart, hget.mounted.dataStart⟩,
          ⟨hget.cache.count, hget.cache.block, hget.cache.empty, hget.cache.size,
            hget.cache.window, hget.cache.clean⟩, hget.entries, hget.bytes, rfl⟩
      · rw [if_neg hfree]
        apply ih hget (by omega) (by omega)
        intro other hother hlt
        rcases Nat.lt_succ_iff_lt_or_eq.mp hlt with hlt | rfl
        · exact hpassed other hother hlt
        · exact hfree

/-- `fat32_get_free_cluster` finds the first free entry from the hint on. -/
theorem Shows.getFree (hshows : Shows bpb clusters vol flat) :
    (∃ cluster, (fat32GetFreeCluster vol).2 = cluster ∧
      flat.IsNextFree clusters cluster ∧
      Shows bpb clusters (fat32GetFreeCluster vol).1 { flat with search := cluster }) ∨
    ((fat32GetFreeCluster vol).2 = 0 ∧ flat.Full clusters ∧
      Shows bpb clusters (fat32GetFreeCluster vol).1 flat) := by
  have hrounds : vol.mount.bpb.entryCount - vol.mount.fatSearchStart =
      clusters - flat.search := by
    rw [hshows.mounted.bpb_eq, hshows.geometry.entryCount_eq, hshows.search]
  unfold fat32GetFreeCluster
  rw [hrounds, hshows.search]
  exact hshows.findFree rfl (le_refl _) fun other hother hlt => absurd hlt (by omega)

/-- A free cluster is linked behind `last`, or there is none. -/
theorem Shows.linkNew (hshows : Shows bpb clusters vol flat) {last : ℕ}
    (hlast : last < clusters + 2) (hzero : flat.table 0 ≠ 0) :
    (∃ cluster, (linkNewCluster vol last).2 = cluster ∧ cluster ≠ 0 ∧
      flat.IsNextFree clusters cluster ∧
      Shows bpb clusters (linkNewCluster vol last).1 (flat.link last cluster)) ∨
    ((linkNewCluster vol last).2 = 0 ∧ flat.Full clusters ∧
      Shows bpb clusters (linkNewCluster vol last).1 flat) := by
  have hclusters := hshows.geometry.clusters_lt
  have hfree := hshows.getFree
  rw [linkNewCluster]
  generalize fat32GetFreeCluster vol = result at hfree ⊢
  obtain ⟨vol', found⟩ := result
  dsimp only at hfree ⊢
  rcases hfree with ⟨cluster, rfl, hnext, hfound⟩ | ⟨rfl, hfull, hsame⟩
  · have hne : found ≠ 0 := by
      intro heq
      exact hzero (heq ▸ hnext.2.2.1)
    have hlt := hnext.2.1
    have hvalue : fat32Eoc < 2 ^ 32 := by
      unfold fat32Eoc
      omega
    left
    rw [if_neg hne]
    refine ⟨found, rfl, hne, hnext, ?_⟩
    have hlinked := hfound.set hlast (show found < 2 ^ 32 by omega)
    exact hlinked.set (show found < clusters + 2 by omega) hvalue
  · right
    rw [if_pos rfl]
    exact ⟨rfl, hfull, hsame⟩

end Shows

end KimisOS.Fat32
