import KimisOS.Core.ByteStore

/-!
# The cache of the file allocation table

One window of 16384 entries is kept in memory.  It is loaded on the first
access, written back when it is dirty and another window is needed, and every
access goes through it.  Offsets into the device are computed in 32 bits.
-/

namespace KimisOS.Fat32

open KimisOS.ByteStore

/-- The fields of the BIOS parameter block that the driver reads. -/
structure Bpb where
  bytesPerSector : ℕ
  sectorsPerCluster : ℕ
  reservedSectors : ℕ
  fatCount : ℕ
  sectorCount : ℕ
  sectorsPerFat : ℕ
  deriving DecidableEq

/-- `fat_mount_t`.  The cache is the memory behind `fat_cache`, which is a null
pointer until `fatCacheAllocated` is set; `blockSizeBytes` is the field of
`mount_src`. -/
structure Mount where
  bpb : Bpb
  blockSizeBytes : ℕ
  cacheDirty : Bool
  fatSearchStart : ℕ
  fatStartSector : ℕ
  dataStartSector : ℕ
  fatCacheStart : ℕ
  fatCacheSize : ℕ
  fatCacheAllocated : Bool
  fatCache : ℕ → UInt8

/-- A mount and the bytes of its device. -/
structure Volume where
  mount : Mount
  device : ℕ → UInt8

def fatCacheSizeEntries : ℕ := 16384

/-- The offset in the device of the window that starts with entry `start`. -/
def Mount.windowOffset (mount : Mount) (start : ℕ) : ℕ :=
  (mount.fatStartSector * mount.blockSizeBytes % 2 ^ 32 + start * 4) % 2 ^ 32

/-- `recache_fat32_table`: write the window back if it is dirty, and load the
one of `index`. -/
def recacheFat32Table (vol : Volume) (index : ℕ) : Volume :=
  let newAllocation := !vol.mount.fatCacheAllocated
  let device :=
    if !newAllocation && vol.mount.cacheDirty then
      store vol.device (vol.mount.windowOffset vol.mount.fatCacheStart)
        vol.mount.fatCache (fatCacheSizeEntries * 4)
    else vol.device
  let minFatIndex := index / fatCacheSizeEntries * fatCacheSizeEntries
  { mount := { vol.mount with
      fatCacheAllocated := true
      fatCacheStart := minFatIndex
      fatCacheSize := fatCacheSizeEntries
      cacheDirty := false
      fatCache := load device (vol.mount.windowOffset minFatIndex) }
    device := device }

/-- `fat32_check_bounds`: the entry is in the cached window. -/
def fat32CheckBounds (mount : Mount) (index : ℕ) : Bool :=
  mount.fatCacheSize != 0 && decide (mount.fatCacheStart ≤ index) &&
    decide (index < (mount.fatCacheStart + mount.fatCacheSize) % 2 ^ 32)

/-- The volume with the entry in its cache. -/
def cacheEntry (vol : Volume) (index : ℕ) : Volume :=
  if fat32CheckBounds vol.mount index then vol else recacheFat32Table vol index

def Mount.cached (mount : Mount) (index : ℕ) : ℕ :=
  readU32 mount.fatCache (4 * (index - mount.fatCacheStart))

def fat32SetNextCluster (vol : Volume) (index value : ℕ) : Volume :=
  let vol := cacheEntry vol index
  { vol with mount := { vol.mount with
      cacheDirty := true
      fatCache := writeU32 vol.mount.fatCache
        (4 * (index - vol.mount.fatCacheStart)) value
      fatSearchStart := index } }

def fat32GetNextCluster (vol : Volume) (index : ℕ) : Volume × ℕ :=
  let vol := cacheEntry vol index
  (vol, vol.mount.cached index)

/-! ## The table behind the cache -/

/-- The place of an entry on the device. -/
def entryOffset (mount : Mount) (index : ℕ) : ℕ :=
  (mount.fatStartSector * mount.bpb.bytesPerSector % 2 ^ 32 +
      index / 16384 * 16384 * 4) % 2 ^ 32 + 4 * (index % 16384)

/-- The entry as it is on the device. -/
def diskEntry (vol : Volume) (index : ℕ) : ℕ :=
  readU32 vol.device (entryOffset vol.mount index)

/-- The entry on the device, overlaid with the cached window. -/
def fatEntry (vol : Volume) (index : ℕ) : ℕ :=
  if fat32CheckBounds vol.mount index then vol.mount.cached index
  else diskEntry vol index

/-- The driver looks for the table where the parameter block puts it. -/
def Mount.FindsTable (mount : Mount) : Prop :=
  mount.fatStartSector * mount.blockSizeBytes % 2 ^ 32 =
    mount.fatStartSector * mount.bpb.bytesPerSector % 2 ^ 32

theorem Mount.findsTable_of_block {mount : Mount}
    (hblock : mount.blockSizeBytes = mount.bpb.bytesPerSector) : mount.FindsTable := by
  rw [Mount.FindsTable, hblock]

theorem entryOffset_eq {mount : Mount} {index : ℕ}
    (hbelow : mount.fatStartSector * mount.bpb.bytesPerSector + 4 * index < 2 ^ 32) :
    entryOffset mount index =
      mount.fatStartSector * mount.bpb.bytesPerSector + 4 * index := by
  unfold entryOffset
  omega

/-- The cache is empty, or it holds a window of one of the first `entryCount`
entries which, unless it is dirty, agrees with the device on these entries. -/
structure CacheInv (entryCount : ℕ) (vol : Volume) : Prop where
  count : entryCount ≤ 2 ^ 28
  block : vol.mount.FindsTable
  empty : vol.mount.fatCacheAllocated = false → vol.mount.fatCacheSize = 0
  size : vol.mount.fatCacheAllocated = true → vol.mount.fatCacheSize = 16384
  window : vol.mount.fatCacheAllocated = true → ∃ index < entryCount,
    vol.mount.fatCacheStart = index / 16384 * 16384
  clean : vol.mount.fatCacheAllocated = true → vol.mount.cacheDirty = false →
    ∀ index < entryCount, fat32CheckBounds vol.mount index = true →
      vol.mount.cached index = diskEntry vol index

section Invariant

variable {entryCount : ℕ} {vol : Volume}

theorem CacheInv.checkBounds_iff (hinv : CacheInv entryCount vol) (index : ℕ) :
    fat32CheckBounds vol.mount index = true ↔
      vol.mount.fatCacheAllocated = true ∧
        vol.mount.fatCacheStart = index / 16384 * 16384 := by
  have hcount := hinv.count
  cases halloc : vol.mount.fatCacheAllocated with
  | false => simp [fat32CheckBounds, hinv.empty halloc]
  | true =>
      obtain ⟨start, hstart, hwindow⟩ := hinv.window halloc
      simp only [fat32CheckBounds, hinv.size halloc, Bool.and_eq_true, bne_iff_ne,
        decide_eq_true_eq, true_and]
      omega

/-- The cached window lies on the device where its entries do. -/
theorem Mount.FindsTable.windowOffset_add {mount : Mount} (hfinds : mount.FindsTable)
    (index : ℕ) :
    mount.windowOffset (index / 16384 * 16384) + 4 * (index % 16384) =
      entryOffset mount index := by
  rw [Mount.FindsTable] at hfinds
  rw [Mount.windowOffset, entryOffset, hfinds]

/-- Two entries are in the same window, or their windows are apart. -/
theorem windowOffset_apart {mount : Mount} {index index' : ℕ}
    (hindex : index < 2 ^ 28) (hindex' : index' < 2 ^ 28)
    (hne : index / 16384 ≠ index' / 16384) :
    mount.windowOffset (index / 16384 * 16384) + 65536 ≤
        mount.windowOffset (index' / 16384 * 16384) ∨
      mount.windowOffset (index' / 16384 * 16384) + 65536 ≤
        mount.windowOffset (index / 16384 * 16384) := by
  unfold Mount.windowOffset
  generalize mount.fatStartSector * mount.blockSizeBytes % 2 ^ 32 = start
  omega

/-- Loading windows never touches this byte of the device: there is a single
window, or the byte lies outside all of them. -/
def Sheltered (entryCount : ℕ) (mount : Mount) (a : ℕ) : Prop :=
  entryCount ≤ 16384 ∨ ∀ index < entryCount,
    a < mount.windowOffset (index / 16384 * 16384) ∨
      mount.windowOffset (index / 16384 * 16384) + 65536 ≤ a

/-- The device after the write-back. -/
def writtenBack (vol : Volume) : ℕ → UInt8 :=
  if vol.mount.fatCacheAllocated = true ∧ vol.mount.cacheDirty = true then
    store vol.device (vol.mount.windowOffset vol.mount.fatCacheStart)
      vol.mount.fatCache 65536
  else vol.device

theorem recacheFat32Table_eq (vol : Volume) (index : ℕ) :
    recacheFat32Table vol index =
      { mount := { vol.mount with
          fatCacheAllocated := true
          fatCacheStart := index / 16384 * 16384
          fatCacheSize := 16384
          cacheDirty := false
          fatCache := load (writtenBack vol)
            (vol.mount.windowOffset (index / 16384 * 16384)) }
        device := writtenBack vol } := by
  have hdevice : (if !(!vol.mount.fatCacheAllocated) && vol.mount.cacheDirty then
      store vol.device (vol.mount.windowOffset vol.mount.fatCacheStart)
        vol.mount.fatCache (fatCacheSizeEntries * 4)
      else vol.device) = writtenBack vol := by
    simp [writtenBack, fatCacheSizeEntries]
  simp only [recacheFat32Table, hdevice]
  rfl

/-- The write-back brings the overlaid table to the device. -/
theorem CacheInv.readU32_writtenBack (hinv : CacheInv entryCount vol) {index : ℕ}
    (hindex : index < entryCount) :
    readU32 (writtenBack vol) (entryOffset vol.mount index) = fatEntry vol index := by
  have hcount := hinv.count
  have hbounds := hinv.checkBounds_iff index
  unfold writtenBack fatEntry
  by_cases hdirty : vol.mount.fatCacheAllocated = true ∧ vol.mount.cacheDirty = true
  · rw [if_pos hdirty]
    obtain ⟨start, hstart, hwindow⟩ := hinv.window hdirty.1
    by_cases hcovered : fat32CheckBounds vol.mount index = true
    · have hsame := (hbounds.mp hcovered).2
      have hlocal : index - vol.mount.fatCacheStart = index % 16384 := by omega
      rw [if_pos hcovered, ← hinv.block.windowOffset_add, Mount.cached, hlocal, hsame]
      exact readU32_store_inside (by omega)
    · rw [if_neg hcovered, ← hinv.block.windowOffset_add, hwindow]
      have hne : index / 16384 ≠ start / 16384 := by
        intro heq
        have hsame : vol.mount.fatCacheStart = index / 16384 * 16384 := by
          rw [hwindow, heq]
        exact hcovered (hbounds.mpr ⟨hdirty.1, hsame⟩)
      have hapart := @windowOffset_apart vol.mount index start (by omega) (by omega) hne
      rw [readU32_store_outside (by omega), diskEntry, ← hinv.block.windowOffset_add]
  · rw [if_neg hdirty]
    by_cases hcovered : fat32CheckBounds vol.mount index = true
    · have halloc := (hbounds.mp hcovered).1
      have hclean : vol.mount.cacheDirty = false := by
        simpa [halloc] using hdirty
      rw [if_pos hcovered, hinv.clean halloc hclean index hindex hcovered]
      rfl
    · rw [if_neg hcovered]
      rfl

/-- Loading another window keeps the table. -/
theorem CacheInv.recache (hinv : CacheInv entryCount vol) {index : ℕ}
    (hindex : index < entryCount) :
    CacheInv entryCount (recacheFat32Table vol index) ∧
      ∀ other < entryCount,
        fatEntry (recacheFat32Table vol index) other = fatEntry vol other := by
  have hinside : ∀ other, other / 16384 = index / 16384 →
      readU32 (load (writtenBack vol)
        (vol.mount.windowOffset (index / 16384 * 16384)))
          (4 * (other - index / 16384 * 16384)) =
        readU32 (writtenBack vol) (entryOffset vol.mount other) := by
    intro other hsame
    have hlocal : other - index / 16384 * 16384 = other % 16384 := by omega
    rw [readU32_load, hlocal, ← hinv.block.windowOffset_add, hsame]
  have hnew : CacheInv entryCount (recacheFat32Table vol index) := by
    rw [recacheFat32Table_eq]
    refine ⟨hinv.count, hinv.block, ?_, fun _ => rfl, fun _ => ⟨index, hindex, rfl⟩, ?_⟩
    · intro hempty
      cases hempty
    · intro _ _ other hother hcovered
      have hcount := hinv.count
      have hsame : other / 16384 = index / 16384 := by
        simp only [fat32CheckBounds, Bool.and_eq_true, decide_eq_true_eq] at hcovered
        omega
      exact hinside other hsame
  refine ⟨hnew, ?_⟩
  intro other hother
  have hbounds := hnew.checkBounds_iff other
  rw [← hinv.readU32_writtenBack hother]
  unfold fatEntry
  by_cases hcovered : fat32CheckBounds (recacheFat32Table vol index).mount other = true
  · rw [if_pos hcovered]
    have hsame := (hbounds.mp hcovered).2
    rw [recacheFat32Table_eq] at hsame ⊢
    exact hinside other (by dsimp only at hsame; omega)
  · rw [if_neg hcovered, recacheFat32Table_eq]
    rfl

theorem CacheInv.device_recache (hinv : CacheInv entryCount vol) {index a : ℕ}
    (hindex : index < entryCount) (hout : fat32CheckBounds vol.mount index = false)
    (ha : Sheltered entryCount vol.mount a) :
    (recacheFat32Table vol index).device a = vol.device a := by
  rw [recacheFat32Table_eq]
  unfold writtenBack
  dsimp only
  split
  case isTrue hdirty =>
    obtain ⟨start, hstart, hwindow⟩ := hinv.window hdirty.1
    rcases ha with hsingle | hclear
    · have hsame : vol.mount.fatCacheStart = index / 16384 * 16384 := by
        rw [hwindow, Nat.div_eq_of_lt (by omega), Nat.div_eq_of_lt (by omega)]
      have hcovered := (hinv.checkBounds_iff index).mpr ⟨hdirty.1, hsame⟩
      rw [hout] at hcovered
      cases hcovered
    · apply store_outside
      rw [hwindow]
      exact hclear start hstart
  case isFalse => rfl

end Invariant

/-- What accesses through the cache leave alone. -/
structure SameGeometry (vol vol' : Volume) : Prop where
  bpb : vol'.mount.bpb = vol.mount.bpb
  blockSizeBytes : vol'.mount.blockSizeBytes = vol.mount.blockSizeBytes
  fatStartSector : vol'.mount.fatStartSector = vol.mount.fatStartSector
  dataStartSector : vol'.mount.dataStartSector = vol.mount.dataStartSector

theorem SameGeometry.trans {vol vol' vol'' : Volume} (hfirst : SameGeometry vol vol')
    (hsecond : SameGeometry vol' vol'') : SameGeometry vol vol'' where
  bpb := hsecond.bpb.trans hfirst.bpb
  blockSizeBytes := hsecond.blockSizeBytes.trans hfirst.blockSizeBytes
  fatStartSector := hsecond.fatStartSector.trans hfirst.fatStartSector
  dataStartSector := hsecond.dataStartSector.trans hfirst.dataStartSector

theorem Mount.FindsTable.congr {vol vol' : Volume} (hfinds : vol.mount.FindsTable)
    (hsame : SameGeometry vol vol') : vol'.mount.FindsTable := by
  rw [Mount.FindsTable] at hfinds
  rw [Mount.FindsTable, hsame.fatStartSector, hsame.blockSizeBytes, hsame.bpb, hfinds]

/-- An access brings the entry into the cache and keeps the table. -/
theorem CacheInv.cacheEntry {entryCount : ℕ} {vol : Volume}
    (hinv : CacheInv entryCount vol) {index : ℕ} (hindex : index < entryCount) :
    CacheInv entryCount (cacheEntry vol index) ∧
      fat32CheckBounds (Fat32.cacheEntry vol index).mount index = true ∧
      (∀ other < entryCount,
        fatEntry (Fat32.cacheEntry vol index) other = fatEntry vol other) ∧
      SameGeometry vol (Fat32.cacheEntry vol index) ∧
      (Fat32.cacheEntry vol index).mount.fatSearchStart = vol.mount.fatSearchStart ∧
      ∀ a, Sheltered entryCount vol.mount a →
        (Fat32.cacheEntry vol index).device a = vol.device a := by
  unfold Fat32.cacheEntry
  split
  case isTrue hcovered =>
    exact ⟨hinv, hcovered, fun _ _ => rfl, ⟨rfl, rfl, rfl, rfl⟩, rfl, fun _ _ => rfl⟩
  case isFalse hout =>
    obtain ⟨hnew, hsame⟩ := hinv.recache hindex
    refine ⟨hnew, ?_, hsame, ⟨rfl, rfl, rfl, rfl⟩, rfl, ?_⟩
    · rw [hnew.checkBounds_iff, recacheFat32Table_eq]
      exact ⟨rfl, rfl⟩
    · intro a ha
      exact hinv.device_recache hindex (Bool.eq_false_iff.mpr hout) ha

/-- `fat32_get_next_cluster` returns the entry and keeps the table. -/
theorem CacheInv.get {entryCount : ℕ} {vol : Volume}
    (hinv : CacheInv entryCount vol) {index : ℕ} (hindex : index < entryCount) :
    CacheInv entryCount (fat32GetNextCluster vol index).1 ∧
      (fat32GetNextCluster vol index).2 = fatEntry vol index ∧
      (∀ other < entryCount,
        fatEntry (fat32GetNextCluster vol index).1 other = fatEntry vol other) ∧
      SameGeometry vol (fat32GetNextCluster vol index).1 ∧
      (fat32GetNextCluster vol index).1.mount.fatSearchStart =
        vol.mount.fatSearchStart ∧
      ∀ a, Sheltered entryCount vol.mount a →
        (fat32GetNextCluster vol index).1.device a = vol.device a := by
  obtain ⟨hnew, hcovered, hsame, hgeometry, hsearch, hdevice⟩ := hinv.cacheEntry hindex
  refine ⟨hnew, ?_, hsame, hgeometry, hsearch, hdevice⟩
  rw [← hsame index hindex, fatEntry, if_pos hcovered]
  rfl

/-- `fat32_set_next_cluster` changes one entry of the table. -/
theorem CacheInv.set {entryCount : ℕ} {vol : Volume}
    (hinv : CacheInv entryCount vol) {index : ℕ} (hindex : index < entryCount)
    (value : ℕ) :
    CacheInv entryCount (fat32SetNextCluster vol index value) ∧
      (∀ other < entryCount,
        fatEntry (fat32SetNextCluster vol index value) other =
          if other = index then value % 2 ^ 32 else fatEntry vol other) ∧
      SameGeometry vol (fat32SetNextCluster vol index value) ∧
      (fat32SetNextCluster vol index value).mount.fatSearchStart = index ∧
      ∀ a, Sheltered entryCount vol.mount a →
        (fat32SetNextCluster vol index value).device a = vol.device a := by
  obtain ⟨hnew, hcovered, hsame, hgeometry, -, hdevice⟩ := hinv.cacheEntry hindex
  obtain ⟨halloc, hstart⟩ := (hnew.checkBounds_iff index).mp hcovered
  refine ⟨⟨hnew.count, hnew.block, hnew.empty, hnew.size, hnew.window, ?_⟩, ?_,
    ⟨hgeometry.1, hgeometry.2, hgeometry.3, hgeometry.4⟩, rfl, hdevice⟩
  · intro _ hclean
    cases hclean
  · intro other hother
    have hentry : ∀ j, fat32CheckBounds (fat32SetNextCluster vol index value).mount j =
        fat32CheckBounds (Fat32.cacheEntry vol index).mount j := fun _ => rfl
    by_cases heq : other = index
    · subst heq
      rw [if_pos rfl, fatEntry, hentry, if_pos hcovered]
      exact readU32_writeU32_self _ _ _
    · rw [if_neg heq, ← hsame other hother]
      unfold fatEntry
      rw [hentry]
      split
      case isTrue hother' =>
        have hwindow := ((hnew.checkBounds_iff other).mp hother').2
        apply readU32_writeU32_of_disjoint
        change 4 * (other - (Fat32.cacheEntry vol index).mount.fatCacheStart) + 4 ≤ _ ∨
          _ ≤ 4 * (other - (Fat32.cacheEntry vol index).mount.fatCacheStart)
        omega
      case isFalse => rfl

/-! ## Runs of table accesses -/

inductive TableOp where
  | get (index : ℕ)
  | set (index : ℕ) (value : UInt32)

def TableOp.index : TableOp → ℕ
  | .get index => index
  | .set index _ => index

/-- The accesses through the cache, with the values that the gets return. -/
def runCache : Volume → List TableOp → Volume × List ℕ
  | vol, [] => (vol, [])
  | vol, .get index :: ops =>
      let (vol, value) := fat32GetNextCluster vol index
      let (vol, values) := runCache vol ops
      (vol, value :: values)
  | vol, .set index value :: ops =>
      runCache (fat32SetNextCluster vol index value.toNat) ops

/-- The same accesses to a plain table. -/
def runTable : (ℕ → ℕ) → List TableOp → (ℕ → ℕ) × List ℕ
  | table, [] => (table, [])
  | table, .get index :: ops =>
      let (final, values) := runTable table ops
      (final, table index :: values)
  | table, .set index value :: ops =>
      runTable (Function.update table index value.toNat) ops

/-- The state of the cache after `fat32_mount`. -/
structure FreshCache (mount : Mount) : Prop where
  notAllocated : mount.fatCacheAllocated = false
  sizeZero : mount.fatCacheSize = 0

theorem FreshCache.inv {vol : Volume} {entryCount : ℕ} (hfresh : FreshCache vol.mount)
    (hcount : entryCount ≤ 2 ^ 28)
    (hblock : vol.mount.FindsTable) :
    CacheInv entryCount vol := by
  have hnever : vol.mount.fatCacheAllocated ≠ true := by
    rw [hfresh.notAllocated]
    exact Bool.false_ne_true
  exact ⟨hcount, hblock, fun _ => hfresh.sizeZero, fun h => absurd h hnever,
    fun h => absurd h hnever, fun h => absurd h hnever⟩

/-- The cache simulates the table that its overlay shows. -/
theorem runCache_simulates {vol : Volume} {table : ℕ → ℕ} {ops : List TableOp}
    (hinv : CacheInv (2 ^ 28) vol) (hops : ∀ op ∈ ops, op.index < 2 ^ 28)
    (hagree : ∀ index < 2 ^ 28, fatEntry vol index = table index) :
    (runCache vol ops).2 = (runTable table ops).2 ∧
      ∀ index < 2 ^ 28,
        fatEntry (runCache vol ops).1 index = (runTable table ops).1 index := by
  induction ops generalizing vol table with
  | nil => exact ⟨rfl, hagree⟩
  | cons op ops ih =>
      have hindex := hops op List.mem_cons_self
      have hrest : ∀ op ∈ ops, op.index < 2 ^ 28 := by
        intro op hop
        exact hops op (List.mem_cons_of_mem _ hop)
      cases op with
      | get index =>
          change index < 2 ^ 28 at hindex
          obtain ⟨hnew, hvalue, hsame, -⟩ := hinv.get hindex
          have hnext : ∀ other < 2 ^ 28,
              fatEntry (fat32GetNextCluster vol index).1 other = table other := by
            intro other hother
            rw [hsame other hother, hagree other hother]
          obtain ⟨hvalues, hfinal⟩ := ih hnew hrest hnext
          refine ⟨?_, hfinal⟩
          simp only [runCache, runTable, hvalues, hvalue, hagree index hindex]
      | set index value =>
          change index < 2 ^ 28 at hindex
          obtain ⟨hnew, hset, -⟩ := hinv.set hindex value.toNat
          have hnext : ∀ other < 2 ^ 28,
              fatEntry (fat32SetNextCluster vol index value.toNat) other =
                Function.update table index value.toNat other := by
            intro other hother
            rw [hset other hother, Function.update_apply, hagree other hother,
              Nat.mod_eq_of_lt value.toNat_lt]
          exact ih hnew hrest hnext

/-- The cache is transparent.  From a fresh mount on, every sequence of gets
and sets returns what it would on the plain table that is on the device, and
the device overlaid with the cached window shows that table at every point.
An entry is where the parameter block says, as far as this is below 4 GiB. -/
theorem fatCache_transparent (vol : Volume) (ops : List TableOp)
    (hfresh : FreshCache vol.mount)
    (hblock : vol.mount.blockSizeBytes = vol.mount.bpb.bytesPerSector)
    (hops : ∀ op ∈ ops, op.index < 2 ^ 28) :
    (runCache vol ops).2 = (runTable (diskEntry vol) ops).2 ∧
      (∀ index < 2 ^ 28,
        fatEntry (runCache vol ops).1 index = (runTable (diskEntry vol) ops).1 index) ∧
      ∀ index, vol.mount.fatStartSector * vol.mount.bpb.bytesPerSector + 4 * index <
          2 ^ 32 →
        diskEntry vol index = readU32 vol.device
          (vol.mount.fatStartSector * vol.mount.bpb.bytesPerSector + 4 * index) := by
  have hagree : ∀ index < 2 ^ 28, fatEntry vol index = diskEntry vol index := by
    intro index _
    simp [fatEntry, fat32CheckBounds, hfresh.sizeZero]
  have hcache := hfresh.inv (le_refl (2 ^ 28)) (Mount.findsTable_of_block hblock)
  obtain ⟨hvalues, hfinal⟩ := runCache_simulates hcache hops hagree
  refine ⟨hvalues, hfinal, ?_⟩
  intro index hbelow
  rw [diskEntry, entryOffset_eq hbelow]

/-- A small volume on a device of zeros. -/
def zeroVolume : Volume where
  mount :=
    { bpb := ⟨512, 1, 32, 2, 65536, 512⟩
      blockSizeBytes := 512
      cacheDirty := false
      fatSearchStart := 0
      fatStartSector := 32
      dataStartSector := 1056
      fatCacheStart := 0
      fatCacheSize := 0
      fatCacheAllocated := false
      fatCache := fun _ => 0 }
  device := fun _ => 0

/-- A set is read back after another window has been loaded in between. -/
theorem fatCache_transparent_two_windows :
    (runCache zeroVolume [.set 5 7, .get 20000, .get 5]).2 =
      (runTable (diskEntry zeroVolume) [.set 5 7, .get 20000, .get 5]).2 := by
  apply (fatCache_transparent zeroVolume _ ⟨rfl, rfl⟩ rfl _).1
  intro op hop
  fin_cases hop <;> decide

end KimisOS.Fat32
