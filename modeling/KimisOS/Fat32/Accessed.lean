import KimisOS.Fat32.Create
import KimisOS.Fat32.Integrity
import KimisOS.Fat32.Read

/-!
# Calls that only read the table

A call that reads entries of the table, in whatever clusters, keeps the table,
and leaves the device as it was or with the cached window on it.  This holds
for opening files, for the walk of `fat32_create`, for reading a directory, and
for looking for a free cluster.
-/

namespace KimisOS.Fat32

open KimisOS.ByteStore
open KimisOS.Walk

/-! ## The volume after accesses -/

/-- Another window has been loaded, and the old one has been written back. -/
structure Reloaded (base vol : Volume) : Prop where
  device : vol.device = writtenBack base
  clean : vol.mount.cacheDirty = false
  allocated : vol.mount.fatCacheAllocated = true
  size : vol.mount.fatCacheSize = 16384
  window : ∃ index < 2 ^ 28, vol.mount.fatCacheStart = index / 16384 * 16384 ∧
    vol.mount.fatCache =
      load (writtenBack base) (base.mount.windowOffset (index / 16384 * 16384))
  geometry : SameGeometry base vol
  search : vol.mount.fatSearchStart = base.mount.fatSearchStart

section Accessed

variable {base vol : Volume} {count index : ℕ}

theorem Reloaded.writtenBack_eq (hreloaded : Reloaded base vol) :
    writtenBack vol = writtenBack base := by
  rw [writtenBack, if_neg (by simp [hreloaded.clean]), hreloaded.device]

/-- What an access does to the volume. -/
theorem cacheEntry_eq (vol : Volume) (index : ℕ) :
    (fat32CheckBounds vol.mount index = true ∧ cacheEntry vol index = vol) ∨
      (fat32CheckBounds vol.mount index ≠ true ∧
        cacheEntry vol index = recacheFat32Table vol index) := by
  by_cases hbounds : fat32CheckBounds vol.mount index = true
  · exact .inl ⟨hbounds, if_pos hbounds⟩
  · exact .inr ⟨hbounds, if_neg hbounds⟩

theorem Reloaded.recache (hindex : index < 2 ^ 28) :
    Reloaded base (recacheFat32Table base index) := by
  rw [recacheFat32Table_eq]
  exact ⟨rfl, rfl, rfl, rfl, ⟨index, hindex, rfl, rfl⟩, ⟨rfl, rfl, rfl, rfl⟩, rfl⟩

theorem Reloaded.again (hreloaded : Reloaded base vol) (hindex : index < 2 ^ 28) :
    Reloaded base (recacheFat32Table vol index) := by
  have hback := hreloaded.writtenBack_eq
  have hsame := hreloaded.geometry
  rw [recacheFat32Table_eq, hback]
  refine ⟨rfl, rfl, rfl, rfl, ⟨index, hindex, rfl, ?_⟩,
    ⟨hsame.bpb, hsame.blockSizeBytes, hsame.fatStartSector, hsame.dataStartSector⟩,
    hreloaded.search⟩
  rw [Mount.windowOffset, Mount.windowOffset, hsame.fatStartSector, hsame.blockSizeBytes]

/-- After any accesses the volume is as before, or another window is loaded. -/
theorem Accessed.kept (haccessed : Accessed base vol) : vol = base ∨ Reloaded base vol := by
  induction haccessed with
  | refl => exact .inl rfl
  | @get vol index _ hindex ih =>
      change cacheEntry vol index = base ∨ Reloaded base (cacheEntry vol index)
      rcases cacheEntry_eq vol index with ⟨-, heq⟩ | ⟨-, heq⟩
      · rw [heq]
        exact ih
      · rw [heq]
        right
        rcases ih with rfl | hreloaded
        · exact Reloaded.recache hindex
        · exact hreloaded.again hindex

theorem Accessed.geometry (haccessed : Accessed base vol) : SameGeometry base vol := by
  rcases haccessed.kept with rfl | hreloaded
  · exact ⟨rfl, rfl, rfl, rfl⟩
  · exact hreloaded.geometry

theorem Accessed.search (haccessed : Accessed base vol) :
    vol.mount.fatSearchStart = base.mount.fatSearchStart := by
  rcases haccessed.kept with rfl | hreloaded
  · rfl
  · exact hreloaded.search

theorem Accessed.device (haccessed : Accessed base vol) :
    vol.device = base.device ∨ vol.device = writtenBack base := by
  rcases haccessed.kept with rfl | hreloaded
  · exact .inl rfl
  · exact .inr hreloaded.device

/-- Which entries the window holds. -/
theorem Reloaded.checkBounds_iff (hreloaded : Reloaded base vol) (index : ℕ) :
    fat32CheckBounds vol.mount index = true ↔
      vol.mount.fatCacheStart = index / 16384 * 16384 := by
  obtain ⟨other, hother, hstart, -⟩ := hreloaded.window
  simp only [fat32CheckBounds, hreloaded.size, Bool.and_eq_true, bne_iff_ne,
    decide_eq_true_eq]
  omega

theorem Reloaded.entryOffset_eq (hreloaded : Reloaded base vol) (index : ℕ) :
    entryOffset vol.mount index = entryOffset base.mount index := by
  rw [entryOffset, entryOffset, hreloaded.geometry.fatStartSector, hreloaded.geometry.bpb]

/-- The cached entry is the one of the device. -/
theorem Reloaded.cached_eq (hreloaded : Reloaded base vol)
    (hfinds : base.mount.FindsTable)
    (hcovered : fat32CheckBounds vol.mount index = true) :
    vol.mount.cached index = diskEntry vol index := by
  obtain ⟨other, hother, hstart, hcache⟩ := hreloaded.window
  have hwindow := (hreloaded.checkBounds_iff index).mp hcovered
  have hlocal : index - vol.mount.fatCacheStart = index % 16384 := by omega
  rw [Mount.cached, hlocal, hcache, readU32_load, ← hstart, hwindow, diskEntry,
    hreloaded.entryOffset_eq, hreloaded.device, hfinds.windowOffset_add]

theorem Reloaded.entry (hreloaded : Reloaded base vol) (hcache : CacheInv count base)
    (hindex : index < count) : fatEntry vol index = fatEntry base index := by
  have hdisk : diskEntry vol index = fatEntry base index := by
    rw [diskEntry, hreloaded.entryOffset_eq, hreloaded.device,
      hcache.readU32_writtenBack hindex]
  rw [fatEntry]
  split
  case isTrue hcovered => rw [hreloaded.cached_eq hcache.block hcovered, hdisk]
  case isFalse => exact hdisk

/-- Accesses keep the table. -/
theorem Accessed.entry (haccessed : Accessed base vol) (hcache : CacheInv count base)
    (hindex : index < count) : fatEntry vol index = fatEntry base index := by
  rcases haccessed.kept with rfl | hreloaded
  · rfl
  · exact hreloaded.entry hcache hindex

/-- An access brings the entry into the cache, wherever the last one was. -/
theorem checkBounds_cacheEntry (vol : Volume) (hindex : index < 2 ^ 28) :
    fat32CheckBounds (cacheEntry vol index).mount index = true := by
  rcases cacheEntry_eq vol index with ⟨hbounds, heq⟩ | ⟨-, heq⟩
  · rw [heq]
    exact hbounds
  · rw [heq]
    exact ((Reloaded.recache hindex).checkBounds_iff index).mpr
      (by rw [recacheFat32Table_eq])

theorem Accessed.value (haccessed : Accessed base vol) (hcache : CacheInv count base)
    (hindex : index < count) :
    (fat32GetNextCluster vol index).2 = fatEntry base index := by
  have hcount := hcache.count
  have hbounds := checkBounds_cacheEntry vol (show index < 2 ^ 28 by omega)
  have hentry := (haccessed.get (show index < 2 ^ 28 by omega)).entry hcache hindex
  rw [← hentry, fatEntry]
  exact (if_pos hbounds).symm

/-- With an entry of the table in the cache, the cache agrees with the device. -/
theorem Accessed.cacheInv (haccessed : Accessed base vol) (hcache : CacheInv count base)
    (hindex : index < count) (hcovered : fat32CheckBounds vol.mount index = true) :
    CacheInv count vol := by
  rcases haccessed.kept with rfl | hreloaded
  · exact hcache
  · have hsame := hreloaded.geometry
    refine ⟨hcache.count, ?_, ?_, fun _ => hreloaded.size, ?_, ?_⟩
    · exact hcache.block.congr hsame
    · intro hnot
      rw [hreloaded.allocated] at hnot
      cases hnot
    · exact fun _ => ⟨index, hindex, (hreloaded.checkBounds_iff index).mp hcovered⟩
    · intro _ _ other _ hother
      exact hreloaded.cached_eq hcache.block hother

end Accessed

/-! ## Setting an entry -/

/-- The volume with another hint where to look for free clusters. -/
def Volume.searchFrom (vol : Volume) (start : ℕ) : Volume :=
  { vol with mount := { vol.mount with fatSearchStart := start } }

section Set

variable {base vol : Volume} {count index other : ℕ}

theorem fat32SetNextCluster_searchFrom (vol : Volume) (start index value : ℕ) :
    fat32SetNextCluster (vol.searchFrom start) index value =
      fat32SetNextCluster vol index value := by
  have hentry : cacheEntry (vol.searchFrom start) index =
      (cacheEntry vol index).searchFrom start := by
    rcases cacheEntry_eq vol index with ⟨hbounds, heq⟩ | ⟨hbounds, heq⟩
    · rw [heq]
      exact if_pos hbounds
    · rw [heq]
      exact if_neg hbounds
  rw [fat32SetNextCluster, hentry]
  rfl

theorem fat32SetNextCluster_cacheEntry (vol : Volume) (value : ℕ) (hindex : index < 2 ^ 28) :
    fat32SetNextCluster (cacheEntry vol index) index value =
      fat32SetNextCluster vol index value := by
  have hentry : cacheEntry (cacheEntry vol index) index = cacheEntry vol index :=
    if_pos (checkBounds_cacheEntry vol hindex)
  rw [fat32SetNextCluster, hentry]
  rfl

/-- After accesses, setting an entry changes this entry of the table. -/
theorem Accessed.set (haccessed : Accessed base vol) (hcache : CacheInv count base)
    (hindex : index < count) (value : ℕ) :
    CacheInv count (fat32SetNextCluster vol index value) ∧
      (∀ other < count, fatEntry (fat32SetNextCluster vol index value) other =
        if other = index then value % 2 ^ 32 else fatEntry base other) ∧
      SameGeometry base (fat32SetNextCluster vol index value) ∧
      (fat32SetNextCluster vol index value).mount.fatSearchStart = index ∧
      ((fat32SetNextCluster vol index value).device = base.device ∨
        (fat32SetNextCluster vol index value).device = writtenBack base) := by
  have hcount := hcache.count
  have hword : index < 2 ^ 28 := by omega
  have hread : Accessed base (cacheEntry vol index) := haccessed.get hword
  have hinv := hread.cacheInv hcache hindex (checkBounds_cacheEntry vol hword)
  obtain ⟨hset, hentries, hsame, hsearch, -⟩ := hinv.set hindex value
  rw [fat32SetNextCluster_cacheEntry vol value hword] at hset hentries hsame hsearch
  refine ⟨hset, ?_, hread.geometry.trans hsame, hsearch, hread.device⟩
  intro other hother
  rw [hentries other hother, hread.entry hcache hother]

/-- Setting any entry, even one behind the table, keeps the others. -/
theorem fatEntry_set_of_ne (hcache : CacheInv count vol) (hindex : index < 2 ^ 28)
    (hother : other < count) (hne : other ≠ index) (value : ℕ) :
    fatEntry (fat32SetNextCluster vol index value) other = fatEntry vol other := by
  have hread : Accessed vol (cacheEntry vol index) := Accessed.refl.get hindex
  have hcovered := checkBounds_cacheEntry vol hindex
  rw [← hread.entry hcache hother, fatEntry, fatEntry]
  have hbounds : fat32CheckBounds (fat32SetNextCluster vol index value).mount other =
      fat32CheckBounds (cacheEntry vol index).mount other := rfl
  rw [hbounds]
  split
  case isTrue hin =>
    apply readU32_writeU32_of_disjoint
    simp only [fat32CheckBounds, Bool.and_eq_true, decide_eq_true_eq] at hin hcovered
    change 4 * (other - (cacheEntry vol index).mount.fatCacheStart) + 4 ≤ _ ∨
      _ ≤ 4 * (other - (cacheEntry vol index).mount.fatCacheStart)
    omega
  case isFalse => rfl

end Set

/-! ## Opening files -/

section Open

variable {root : Root} {base vol read : Volume}

theorem Accessed.walkTokens {walk : Walk} {tokens : List CString} {found : Option Walk}
    (haccessed : Accessed base vol)
    (hwalk : Fat32.walkTokens root vol walk tokens = some (read, found)) :
    Accessed base read := by
  induction tokens generalizing vol walk with
  | nil =>
      obtain ⟨rfl, -⟩ := Prod.mk.inj (Option.some.inj hwalk)
      exact haccessed
  | cons token tokens ih =>
      rw [Fat32.walkTokens] at hwalk
      cases hlookup : Fat32.lookup root vol walk.parent token with
      | none =>
          rw [hlookup] at hwalk
          cases hwalk
      | some result =>
          obtain ⟨next, entry⟩ := result
          have hnext := haccessed.lookup hlookup
          rw [hlookup] at hwalk
          cases entry with
          | none =>
              obtain ⟨rfl, -⟩ := Prod.mk.inj (Option.some.inj hwalk)
              exact hnext
          | some entry => exact ih hnext hwalk

theorem Accessed.resolvePath {path : CString} {found : Option OpenFile}
    (haccessed : Accessed base vol)
    (hresolve : Fat32.resolvePath root vol path = some (read, found)) :
    Accessed base read := by
  rw [Fat32.resolvePath] at hresolve
  split at hresolve
  case isTrue =>
    obtain ⟨rfl, -⟩ := Prod.mk.inj (Option.some.inj hresolve)
    exact haccessed
  case isFalse =>
    split at hresolve
    case isTrue => cases hresolve
    case isFalse =>
      cases hwalk : Fat32.walkTokens root vol .start (pathTokens path) with
      | none =>
          rw [hwalk] at hresolve
          cases hresolve
      | some result =>
          obtain ⟨next, walk⟩ := result
          rw [hwalk] at hresolve
          obtain ⟨rfl, -⟩ := Prod.mk.inj (Option.some.inj hresolve)
          exact haccessed.walkTokens hwalk

theorem Accessed.fat32Open {path : CString} {parent : VFile} {opened : Option VFile}
    (haccessed : Accessed base vol)
    (hopen : Fat32.fat32Open root vol path parent = some (read, opened)) :
    Accessed base read := by
  rw [Fat32.fat32Open] at hopen
  cases hresolve : Fat32.resolvePath root vol path with
  | none =>
      rw [hresolve] at hopen
      cases hopen
  | some result =>
      obtain ⟨next, file⟩ := result
      have hnext := haccessed.resolvePath hresolve
      rw [hresolve] at hopen
      cases file with
      | none =>
          dsimp only at hopen
          split at hopen
          case isTrue =>
            obtain ⟨rfl, -⟩ := Prod.mk.inj (Option.some.inj hopen)
            exact hnext
          case isFalse =>
            obtain ⟨rfl, -⟩ := Prod.mk.inj (Option.some.inj hopen)
            exact hnext
      | some file =>
          obtain ⟨rfl, -⟩ := Prod.mk.inj (Option.some.inj hopen)
          exact hnext

theorem Accessed.fat32OpenWith {granted : ℕ → Bool} {path : CString} {parent : VFile}
    {opened : Option VFile} (haccessed : Accessed base vol)
    (hopen : Fat32.fat32OpenWith granted root vol path parent = some (read, opened)) :
    Accessed base read := by
  rw [Fat32.fat32OpenWith] at hopen
  split at hopen
  case isTrue => exact haccessed.fat32Open hopen
  case isFalse =>
    split at hopen
    case isTrue =>
      obtain ⟨result, hresult, heq⟩ := Option.map_eq_some_iff.mp hopen
      obtain ⟨rfl, -⟩ := Prod.mk.inj heq
      exact haccessed.fat32Open hresult
    case isFalse =>
      obtain ⟨rfl, -⟩ := Prod.mk.inj (Option.some.inj hopen)
      exact haccessed

theorem Accessed.openParent {scratch : Scratch} {parent : VFile} {target : Target}
    {opened : Option VFile} (haccessed : Accessed base vol)
    (hopen : Fat32.openParent root scratch vol parent target = some (read, opened)) :
    Accessed base read := by
  rw [Fat32.openParent] at hopen
  split at hopen
  · obtain ⟨rfl, -⟩ := Prod.mk.inj (Option.some.inj hopen)
    exact haccessed
  · exact haccessed.fat32OpenWith hopen

end Open

/-! ## Reading a directory -/

section Load

variable {base vol vol' : Volume} {count rounds head : ℕ} {visited : List ℕ}

/-- The walk of `fat32_create`: behind the last cluster of the table that it
visits, the table has a mark of the end. -/
theorem Accessed.createWalk (haccessed : Accessed base vol) (hcache : CacheInv count base)
    (hwalk : Fat32.createWalk rounds vol head = some (vol', visited)) :
    Accessed base vol' ∧ (∀ cluster ∈ visited, cluster < fat32Eoc) ∧
      (visited = [] ↔ fat32Eoc ≤ head) ∧
      ∀ last, visited.getLast? = some last → last < count →
        fat32Eoc ≤ fatEntry base last := by
  have hword : fat32Eoc < 2 ^ 28 := by decide
  induction rounds generalizing vol head visited with
  | zero =>
      rw [Fat32.createWalk, follow] at hwalk
      split at hwalk
      case isTrue => cases hwalk
      case isFalse hstop =>
        obtain ⟨rfl, rfl⟩ := Prod.mk.inj (Option.some.inj hwalk)
        exact ⟨haccessed, by simp, by simpa using hstop, by simp⟩
  | succ rounds ih =>
      rw [Fat32.createWalk, follow] at hwalk
      split at hwalk
      case isTrue hgoes =>
        have hlt : head < fat32Eoc := of_decide_eq_true hgoes
        obtain ⟨walked, hrest, heq⟩ := Option.map_eq_some_iff.mp hwalk
        obtain ⟨rfl, rfl⟩ := Prod.mk.inj heq
        obtain ⟨hvol, hvisited, hnil, hlast⟩ :=
          ih (haccessed.get (show head < 2 ^ 28 by omega)) hrest
        refine ⟨hvol, ?_, by simpa using hlt, ?_⟩
        · intro cluster hmem
          rcases List.mem_cons.mp hmem with rfl | hmem
          · exact hlt
          · exact hvisited cluster hmem
        · intro last hend hcount
          cases hrestNil : walked.2 with
          | nil =>
              rw [hrestNil] at hend
              obtain rfl : head = last := Option.some.inj hend
              rw [← haccessed.value hcache hcount]
              exact hnil.mp hrestNil
          | cons next rest =>
              rw [hrestNil, List.getLast?_cons_cons, ← hrestNil] at hend
              exact hlast last hend hcount
      case isFalse hstop =>
        obtain ⟨rfl, rfl⟩ := Prod.mk.inj (Option.some.inj hwalk)
        exact ⟨haccessed, by simp, by simpa using hstop, by simp⟩

/-- The loop of `fat32_read` reads no entry behind a mark of the end. -/
theorem Accessed.readClusters {clustersToRead total start current remaining i size : ℕ}
    {buffer : ℕ → UInt8} (haccessed : Accessed base vol)
    (hsize : base.mount.bpb.clusterSizeBytes = size)
    (hclusters : 1 ≤ clustersToRead ∧ clustersToRead < 2 ^ 32)
    (hcovers : total ≤ clustersToRead * size) (hremaining : remaining = total - i * size)
    (hcurrent : remaining ≠ 0 → current < 2 ^ 28) :
    Accessed base (Fat32.readClusters clustersToRead total start rounds vol buffer current
      remaining i).vol := by
  induction rounds generalizing vol buffer current remaining i with
  | zero => exact haccessed
  | succ rounds ih =>
      by_cases hdone : remaining = 0
      · rw [hdone, readClusters_done]
        exact haccessed
      · have hread := haccessed.get (hcurrent hdone)
        have hsize' : vol.mount.bpb.clusterSizeBytes = size := by
          rw [haccessed.geometry.bpb, hsize]
        by_cases hend : fat32EocMin ≤ (fat32GetNextCluster vol current).2 ∧
            i < (clustersToRead + 2 ^ 32 - 1) % 2 ^ 32
        · rw [readClusters_last hdone hsize' hend]
          exact hread
        · rw [readClusters_next hdone hsize' hend]
          refine ih hread ?_ ?_
          · rw [hremaining, Nat.succ_mul]
            omega
          · intro hmore
            by_contra hbehind
            have hmark : fat32EocMin ≤ (fat32GetNextCluster vol current).2 := by
              unfold fat32EocMin
              omega
            have hlast : clustersToRead ≤ i + 1 := by
              by_contra hless
              exact hend ⟨hmark, by omega⟩
            have hall : clustersToRead * size ≤ (i + 1) * size :=
              Nat.mul_le_mul_right _ hlast
            rw [Nat.succ_mul] at hall
            omega

/-- `fat32_read` from the start of a file. -/
theorem Accessed.fat32Read {bpb : Bpb} {clusters total : ℕ} {file : OpenFile}
    {buffer : ℕ → UInt8} (haccessed : Accessed base vol) (hgeo : Geometry bpb clusters)
    (hbpb : base.mount.bpb = bpb) (htotal : total < 2 ^ 32)
    (hword : total ≠ 0 → bpb.clusterSizeBytes < 2 ^ 32)
    (hfirst : total ≠ 0 → file.firstCluster < 2 ^ 28) :
    Accessed base (Fat32.fat32Read vol file buffer 0 total).vol := by
  have hsize : vol.mount.bpb.clusterSizeBytes = bpb.clusterSizeBytes := by
    rw [haccessed.geometry.bpb, hbpb]
  have hcs := hgeo.clusterSize_ge
  have hzero : 0 &&& (bpb.clusterSizeBytes - 1) = 0 := Nat.zero_and _
  have hstart := hgeo.udiv64_eq (show 0 < 2 ^ 41 by decide)
  rw [Nat.zero_div] at hstart
  cases hquotient : udiv64 ((total + bpb.clusterSizeBytes - 1) % 2 ^ 64)
      bpb.clusterSizeBytes with
  | none =>
      rw [Fat32.fat32Read, hsize]
      simp only [hstart, hquotient]
      exact haccessed
  | some clustersToRead =>
      rw [fat32Read_from hsize hstart hquotient rfl, readFrom_aligned hsize hzero]
      by_cases hnone : total = 0
      · rw [hnone, readClusters_done]
        exact haccessed
      · have hless := hword hnone
        have hmod : (total + bpb.clusterSizeBytes - 1) % 2 ^ 64 =
            total + bpb.clusterSizeBytes - 1 := Nat.mod_eq_of_lt (by omega)
        have hquotient' := udiv64_eq_some hquotient
        rw [hmod] at hquotient'
        have hone : 1 ≤ clustersToRead := by
          rw [← hquotient', Nat.le_div_iff_mul_le (by omega)]
          omega
        have hcovers : total ≤ clustersToRead * bpb.clusterSizeBytes := by
          have hnext := Nat.lt_mul_div_succ (total + bpb.clusterSizeBytes - 1)
            (show 0 < bpb.clusterSizeBytes by omega)
          rw [hquotient', Nat.mul_succ, Nat.mul_comm] at hnext
          omega
        have hbelow : clustersToRead < 2 ^ 32 := by
          rw [← hquotient']
          apply Nat.div_lt_of_lt_mul
          have := Nat.mul_le_mul_right (2 ^ 32) hcs
          omega
        exact haccessed.readClusters (by rw [hbpb]) ⟨hone, hbelow⟩ hcovers (by simp)
          hfirst

end Load

/-! ## Looking for a free cluster -/

/-- The search of `fat32_get_free_cluster` in a plain table. -/
def firstFree (table : ℕ → ℕ) : ℕ → ℕ → ℕ
  | 0, _ => 0
  | rounds + 1, i => if table i = 0 then i else firstFree table rounds (i + 1)

/-- The cluster that is taken next, or 0. -/
def Volume.nextFree (vol : Volume) : ℕ :=
  firstFree (fatEntry vol) (vol.mount.bpb.entryCount - vol.mount.fatSearchStart)
    vol.mount.fatSearchStart

section Free

variable {base vol : Volume} {count rounds i : ℕ} {table table' : ℕ → ℕ}

theorem firstFree_congr (hsame : ∀ j, i ≤ j → j < i + rounds → table' j = table j) :
    firstFree table' rounds i = firstFree table rounds i := by
  induction rounds generalizing i with
  | zero => rfl
  | succ rounds ih =>
      rw [firstFree, firstFree, hsame i le_rfl (by omega),
        ih fun j hle hlt => hsame j (by omega) (by omega)]

/-- A cluster that is found is free. -/
theorem firstFree_spec (hfound : firstFree table rounds i ≠ 0) :
    i ≤ firstFree table rounds i ∧ firstFree table rounds i < i + rounds ∧
      table (firstFree table rounds i) = 0 := by
  induction rounds generalizing i with
  | zero => exact absurd rfl hfound
  | succ rounds ih =>
      rw [firstFree] at hfound ⊢
      split
      case isTrue hfree => exact ⟨le_rfl, by omega, hfree⟩
      case isFalse hused =>
        rw [if_neg hused] at hfound
        obtain ⟨hle, hlt, hfree⟩ := ih hfound
        exact ⟨by omega, by omega, hfree⟩

theorem Accessed.findFree (haccessed : Accessed base vol) (hcache : CacheInv count base)
    (hrounds : i + rounds ≤ count) :
    (findFreeCluster rounds vol i).2 = firstFree (fatEntry base) rounds i ∧
      ∃ read, Accessed base read ∧
        ((findFreeCluster rounds vol i).1 = read ∨
          ∃ start, (findFreeCluster rounds vol i).1 = read.searchFrom start) := by
  induction rounds generalizing vol i with
  | zero => exact ⟨rfl, vol, haccessed, .inl rfl⟩
  | succ rounds ih =>
      have hcount := hcache.count
      have hvalue := haccessed.value hcache (show i < count by omega)
      have hread := haccessed.get (show i < 2 ^ 28 by omega)
      rw [findFreeCluster, firstFree, hvalue]
      split
      case isTrue => exact ⟨rfl, _, hread, .inr ⟨i, rfl⟩⟩
      case isFalse => exact ih hread (by omega)

/-- After accesses, `fat32_get_free_cluster` finds the next free cluster of the
table. -/
theorem Accessed.getFree {bpb : Bpb} {clusters : ℕ} (haccessed : Accessed base vol)
    (hconsistent : Consistent bpb clusters base) :
    (fat32GetFreeCluster vol).2 = base.nextFree ∧
      ∃ read, Accessed base read ∧ ((fat32GetFreeCluster vol).1 = read ∨
        ∃ start, (fat32GetFreeCluster vol).1 = read.searchFrom start) := by
  have hcount : base.mount.bpb.entryCount = clusters := by
    rw [hconsistent.mounted.bpb_eq, hconsistent.geometry.entryCount_eq]
  rw [fat32GetFreeCluster, Volume.nextFree, haccessed.geometry.bpb, haccessed.search, hcount]
  by_cases hstart : base.mount.fatSearchStart ≤ clusters
  · exact haccessed.findFree hconsistent.cache (by omega)
  · rw [Nat.sub_eq_zero_of_le (by omega)]
    exact ⟨rfl, vol, haccessed, .inl rfl⟩

theorem Volume.nextFree_spec {bpb : Bpb} {clusters : ℕ}
    (hconsistent : Consistent bpb clusters base) (hfound : base.nextFree ≠ 0) :
    base.nextFree < clusters ∧ fatEntry base base.nextFree = 0 := by
  have hcount : base.mount.bpb.entryCount = clusters := by
    rw [hconsistent.mounted.bpb_eq, hconsistent.geometry.entryCount_eq]
  obtain ⟨hle, hlt, hfree⟩ := firstFree_spec hfound
  rw [← Volume.nextFree] at hle
  rw [← Volume.nextFree, hcount] at hlt
  exact ⟨by omega, hfree⟩

end Free

end KimisOS.Fat32
