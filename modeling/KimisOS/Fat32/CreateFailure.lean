import KimisOS.Fat32.Accessed

/-!
# A create that fails

`fat32_create` gives up at several points.  Up to the first cluster that it takes
it has only read; a failure behind that leaves the cluster taken, and one for want
of a cluster to extend the directory with puts a mark of the end into entry 0.
-/

namespace KimisOS.Fat32

open KimisOS.ByteStore

/-! ## What a failure may do -/

/-- The table and the data area with the directories are as before. -/
structure LeftAlone (bpb : Bpb) (clusters : ℕ) (vol vol' : Volume) : Prop where
  entries : ∀ index < clusters + 2, fatEntry vol' index = fatEntry vol index
  contents : ∀ a, bpb.dataOffset ≤ a → vol'.device a = vol.device a

/-- Bringing the cached window to the device changes no byte of the data area. -/
def Volume.Settled (bpb : Bpb) (vol : Volume) : Prop :=
  ∀ a, bpb.dataOffset ≤ a → writtenBack vol a = vol.device a

section LeftAlone

variable {bpb : Bpb} {clusters : ℕ} {base vol vol' : Volume}

theorem Volume.Settled.contents (hsettled : base.Settled bpb)
    (hdevice : vol.device = base.device ∨ vol.device = writtenBack base) {a : ℕ}
    (ha : bpb.dataOffset ≤ a) : vol.device a = base.device a := by
  rcases hdevice with hdevice | hdevice
  · rw [hdevice]
  · rw [hdevice]
    exact hsettled a ha

theorem Accessed.leftAlone (haccessed : Accessed base vol)
    (hcache : CacheInv (clusters + 2) base) (hsettled : base.Settled bpb) :
    LeftAlone bpb clusters base vol :=
  ⟨fun _ hindex => haccessed.entry hcache hindex,
    fun _ ha => hsettled.contents haccessed.device ha⟩

/-- The hint where to search does not matter. -/
theorem Accessed.leftAlone_search {read : Volume} (haccessed : Accessed base read)
    (hcache : CacheInv (clusters + 2) base) (hsettled : base.Settled bpb)
    (hvol : vol = read ∨ ∃ start, vol = read.searchFrom start) :
    LeftAlone bpb clusters base vol := by
  have halone := haccessed.leftAlone hcache hsettled
  rcases hvol with rfl | ⟨start, rfl⟩
  · exact halone
  · exact ⟨halone.entries, halone.contents⟩

/-- A cluster that was free is free. -/
theorem LeftAlone.free (halone : LeftAlone bpb clusters vol vol') {cluster : ℕ}
    (hcluster : cluster < clusters + 2) (hfree : fatEntry vol cluster = 0) :
    fatEntry vol' cluster = 0 := by
  rw [halone.entries cluster hcluster, hfree]

end LeftAlone

/-! ## Where it gives up -/

/-- Where the entries of the new file go. -/
def Directory.slot (scratch : Scratch) (directory : Directory) (target : Target) : Slot :=
  findSlot directory.buffer directory.entryCount target.totalDirents
    (target.bytes scratch.truncPath 0)

/-- The entries do not fit into the directory as it is. -/
def Directory.LacksRoom (scratch : Scratch) (directory : Directory) (target : Target) : Prop :=
  (directory.slot scratch target).found = false ∨ directory.entryCount <
    ((directory.slot scratch target).freeIndex + target.totalDirents) % 2 ^ 32

/-- In a directory with clusters, once it is loaded: the entries lack room, there is no
free cluster, and entry 0 is the mark that it gets; or they have room, and the short names
are used up. -/
def ParentClean (scratch : Scratch) (rounds : ℕ) (vol : Volume) (file : OpenFile)
    (target : Target) : Prop :=
  ∀ vol' directory, loadDirectory scratch rounds vol file = some (vol', some directory) →
    (directory.LacksRoom scratch target → vol.nextFree = 0 ∧ fatEntry vol 0 = fat32Eoc) ∧
      (¬directory.LacksRoom scratch target →
        999999 < (directory.slot scratch target).shortFilenameMatches)

section Steps

variable {scratch : Scratch} {rounds : ℕ} {vol vol₁ vol₂ : Volume} {file : OpenFile}
  {target : Target} {flags freeIndex : ℕ} {directory extended : Directory}

theorem createIn_unloaded (hload : loadDirectory scratch rounds vol file = some (vol₁, none)) :
    createIn scratch rounds vol file target flags = some (vol₁, file, false) := by
  rw [createIn, hload]

theorem createIn_full
    (hload : loadDirectory scratch rounds vol file = some (vol₁, some directory))
    (hroom : makeRoom scratch directory (directory.slot scratch target) target.totalDirents =
      (vol₂, none)) :
    createIn scratch rounds vol file target flags = some (vol₂, file, false) := by
  rw [createIn, hload]
  dsimp only
  rw [← Directory.slot, hroom]

theorem createIn_limit
    (hload : loadDirectory scratch rounds vol file = some (vol₁, some directory))
    (hroom : makeRoom scratch directory (directory.slot scratch target) target.totalDirents =
      (vol₂, some (extended, freeIndex)))
    (hlimit : 999999 < (directory.slot scratch target).shortFilenameMatches) :
    createIn scratch rounds vol file target flags = some (vol₂, file, false) := by
  rw [createIn, hload]
  dsimp only
  rw [← Directory.slot, hroom]
  exact if_pos hlimit

/-- With room and a short name, a call that ends has stored the entries. -/
theorem createIn_stores
    (hload : loadDirectory scratch rounds vol file = some (vol₁, some directory))
    (hroom : makeRoom scratch directory (directory.slot scratch target) target.totalDirents =
      (vol₂, some (extended, freeIndex)))
    (hlimit : ¬999999 < (directory.slot scratch target).shortFilenameMatches)
    {vol' : Volume} {file' : OpenFile} :
    createIn scratch rounds vol file target flags ≠ some (vol', file', false) := by
  rw [createIn, hload]
  dsimp only
  rw [← Directory.slot, hroom]
  dsimp only
  rw [if_neg hlimit]
  split
  case isTrue =>
    intro hmade
    cases hmade
  case isFalse =>
    intro hmade
    obtain ⟨returned, -, heq⟩ := Option.map_eq_some_iff.mp hmade
    cases heq

/-- A call that stores the entries has loaded the directory, it has room, and it has been
written back. -/
theorem createIn_made {vol' : Volume} {file' : OpenFile}
    (hmade : createIn scratch rounds vol file target flags = some (vol', file', true)) :
    ∃ vol₁ directory vol₂ extended freeIndex,
      loadDirectory scratch rounds vol file = some (vol₁, some directory) ∧
      makeRoom scratch directory (directory.slot scratch target) target.totalDirents =
        (vol₂, some (extended, freeIndex)) ∧
      target.totalDirents ≤ 128 ∧
      vol' = (writeDirectory scratch extended file target (directory.slot scratch target)
        freeIndex flags).vol := by
  cases hload : loadDirectory scratch rounds vol file with
  | none =>
      rw [createIn, hload] at hmade
      cases hmade
  | some result =>
      obtain ⟨vol₁, loaded⟩ := result
      cases loaded with
      | none =>
          rw [createIn_unloaded hload] at hmade
          cases hmade
      | some directory =>
          obtain ⟨vol₂, room, hroom⟩ : ∃ vol₂ room, makeRoom scratch directory
              (directory.slot scratch target) target.totalDirents = (vol₂, room) := ⟨_, _, rfl⟩
          cases room with
          | none =>
              rw [createIn_full hload hroom] at hmade
              cases hmade
          | some room =>
              obtain ⟨extended, freeIndex⟩ := room
              rw [createIn, hload] at hmade
              dsimp only at hmade
              rw [← Directory.slot, hroom] at hmade
              dsimp only at hmade
              split at hmade
              case isTrue => cases hmade
              case isFalse =>
                split at hmade
                case isTrue => cases hmade
                case isFalse htotal =>
                  obtain ⟨returned, -, heq⟩ := Option.map_eq_some_iff.mp hmade
                  obtain ⟨rfl, -⟩ := Prod.mk.inj heq
                  exact ⟨vol₁, directory, vol₂, extended, freeIndex, rfl, hroom,
                    Nat.not_lt.mp htotal, rfl⟩

theorem makeRoom_fits (hfits : ¬directory.LacksRoom scratch target) :
    makeRoom scratch directory (directory.slot scratch target) target.totalDirents =
      (directory.vol, some (directory, (directory.slot scratch target).freeIndex)) :=
  if_neg hfits

theorem makeRoom_extends (hlacks : directory.LacksRoom scratch target) :
    ∃ freeIndex, makeRoom scratch directory (directory.slot scratch target)
        target.totalDirents = ((extendDirectory scratch directory).1,
      (extendDirectory scratch directory).2.map fun extended => (extended, freeIndex)) :=
  ⟨_, if_pos hlacks⟩

end Steps

/-! ## The volume behind each exit -/

section Exits

variable {bpb : Bpb} {clusters rounds : ℕ} {base vol vol' : Volume} {scratch : Scratch}
  {file : OpenFile} {target : Target} {directory : Directory}

theorem Accessed.nextFree_eq (haccessed : Accessed base vol)
    (hconsistent : Consistent bpb clusters base) : vol.nextFree = base.nextFree := by
  have hcount : base.mount.bpb.entryCount = clusters := by
    rw [hconsistent.mounted.bpb_eq, hconsistent.geometry.entryCount_eq]
  rw [Volume.nextFree, Volume.nextFree, haccessed.geometry.bpb, haccessed.search, hcount]
  apply firstFree_congr
  intro j _ hlt
  exact haccessed.entry hconsistent.cache (by omega)

/-- The entry has been made the end of a chain, and nothing else is changed. -/
structure Ended (bpb : Bpb) (clusters : ℕ) (base : Volume) (cluster : ℕ) (vol : Volume) :
    Prop where
  consistent : Consistent bpb clusters vol
  entries : ∀ other < clusters + 2,
    fatEntry vol other = if other = cluster then fat32Eoc else fatEntry base other
  search : vol.mount.fatSearchStart = cluster
  device : vol.device = base.device ∨ vol.device = writtenBack base

/-- `fat32_set_next_cluster` with the mark of the end, behind
`fat32_get_free_cluster`. -/
theorem Accessed.ended (haccessed : Accessed base vol)
    (hconsistent : Consistent bpb clusters base) {cluster : ℕ}
    (hcluster : cluster < clusters + 2) :
    Ended bpb clusters base cluster
      (fat32SetNextCluster (fat32GetFreeCluster vol).1 cluster fat32Eoc) := by
  obtain ⟨-, read, hread, hvol⟩ := haccessed.getFree hconsistent
  have hset : fat32SetNextCluster (fat32GetFreeCluster vol).1 cluster fat32Eoc =
      fat32SetNextCluster read cluster fat32Eoc := by
    rcases hvol with hvol | ⟨start, hvol⟩
    · rw [hvol]
    · rw [hvol, fat32SetNextCluster_searchFrom]
  rw [hset]
  obtain ⟨hcache, hentries, hsame, hsearch, hdevice⟩ :=
    hread.set hconsistent.cache hcluster fat32Eoc
  have hvalue : fat32Eoc % 2 ^ 32 = fat32Eoc := by decide
  rw [hvalue] at hentries
  exact ⟨⟨hconsistent.geometry, hconsistent.mounted.congr hsame, hcache⟩, hentries, hsearch,
    hdevice⟩

theorem Ended.entry {cluster : ℕ} (hended : Ended bpb clusters base cluster vol)
    (hcluster : cluster < clusters + 2) : fatEntry vol cluster = fat32Eoc := by
  rw [hended.entries cluster hcluster, if_pos rfl]

/-- A mark in entry 0 is a change, unless it was there. -/
theorem Ended.leftAlone (hended : Ended bpb clusters base 0 vol)
    (hsettled : base.Settled bpb) (hmark : fatEntry base 0 = fat32Eoc) :
    LeftAlone bpb clusters base vol := by
  refine ⟨?_, fun _ ha => hsettled.contents hended.device ha⟩
  intro index hindex
  rw [hended.entries index hindex]
  split
  case isTrue hzero => rw [hzero, hmark]
  case isFalse => rfl

/-- Without a free cluster, entry 0 is set. -/
theorem extendDirectory_full (haccessed : Accessed base directory.vol)
    (hconsistent : Consistent bpb clusters base) (hfull : base.nextFree = 0) :
    ∃ ended, extendDirectory scratch directory = (ended, none) ∧
      Ended bpb clusters base 0 ended := by
  have hfree := (haccessed.getFree hconsistent).1
  rw [hfull] at hfree
  refine ⟨_, ?_, haccessed.ended hconsistent (show 0 < clusters + 2 by omega)⟩
  rw [extendDirectory]
  dsimp only
  rw [if_pos hfree, hfree]

/-- With a free cluster the directory gets it. -/
theorem extendDirectory_linked (haccessed : Accessed base directory.vol)
    (hconsistent : Consistent bpb clusters base) (hfree : base.nextFree ≠ 0)
    (hlast : directory.lastCluster < 2 ^ 28) (hne : directory.lastCluster ≠ base.nextFree) :
    ∃ linked extended, extendDirectory scratch directory = (linked, some extended) ∧
      fatEntry linked base.nextFree = fat32Eoc := by
  have hfound := (haccessed.getFree hconsistent).1
  obtain ⟨hless, -⟩ := Volume.nextFree_spec hconsistent hfree
  have hended := haccessed.ended hconsistent (show base.nextFree < clusters + 2 by omega)
  have hkept := fatEntry_set_of_ne hended.consistent.cache hlast
    (show base.nextFree < clusters + 2 by omega) hne.symm base.nextFree
  rw [hended.entry (by omega)] at hkept
  rw [extendDirectory]
  dsimp only
  rw [hfound, if_neg hfree]
  exact ⟨_, _, rfl, hkept⟩

theorem findSlot_zeros {total count : ℕ} {initial : UInt8} (hcount : 0 < count)
    (htotal : 0 < total) :
    findSlot (fun _ => 0) count total initial = ⟨true, 0, 0⟩ := by
  obtain ⟨rounds, rfl⟩ := Nat.exists_eq_succ_of_ne_zero (Nat.ne_of_gt hcount)
  obtain ⟨left, rfl⟩ := Nat.exists_eq_succ_of_ne_zero (Nat.ne_of_gt htotal)
  have hprobe : probe (fun i => (fun _ => 0 : ℕ → UInt8) (32 * i)) (rounds + 1) 0 (left + 1) 0 =
      (true, 0) := by
    rw [probe, if_neg (by omega), if_pos rfl]
  rw [findSlot, searchSlot, if_neg (by omega)]
  dsimp only
  rw [hprobe, if_pos rfl]

/-- The directory that an empty one is loaded as. -/
def emptyDirectory (vol : Volume) (cluster : ℕ) : Directory := ⟨vol, fun _ => 0, 1, cluster⟩

theorem emptyDirectory_slot {cluster : ℕ} (hcs : 512 ≤ vol.mount.bpb.clusterSizeBytes)
    (hword : vol.mount.bpb.clusterSizeBytes < 2 ^ 32) :
    (emptyDirectory vol cluster).slot scratch target = ⟨true, 0, 0⟩ := by
  have hcount : (emptyDirectory vol cluster).entryCount =
      vol.mount.bpb.clusterSizeBytes / 32 := by
    rw [Directory.entryCount, emptyDirectory, Nat.mul_one, Nat.mod_eq_of_lt hword]
  exact findSlot_zeros (by omega) (Nat.succ_pos _)

theorem Consistent.clusterSize_lt (hconsistent : Consistent bpb clusters base)
    (hsome : 0 < clusters) : bpb.clusterSizeBytes < 2 ^ 32 := by
  have hone := Nat.le_mul_of_pos_left bpb.clusterSizeBytes hsome
  have hbelow := hconsistent.geometry.below
  have hbefore := hconsistent.geometry.table_before
  omega

/-- A directory without clusters gets one, and then its buffer. -/
theorem loadDirectory_taken (haccessed : Accessed base vol)
    (hconsistent : Consistent bpb clusters base) (hempty : file.firstCluster = 0)
    (hfree : base.nextFree ≠ 0) :
    ∃ taken, Ended bpb clusters base base.nextFree taken ∧
      loadDirectory scratch rounds vol file = some (taken,
        if scratch.grants.buffer then some (emptyDirectory taken base.nextFree) else none) := by
  obtain ⟨hless, -⟩ := Volume.nextFree_spec hconsistent hfree
  refine ⟨_, haccessed.ended hconsistent (show base.nextFree < clusters + 2 by omega), ?_⟩
  rw [loadDirectory, if_pos hempty]
  dsimp only
  rw [(haccessed.getFree hconsistent).1, if_neg hfree]
  rfl

/-- Without a free cluster, a directory that has none stays as it is. -/
theorem createIn_empty_alone {flags : ℕ} {file' : OpenFile} {stored : Bool}
    (haccessed : Accessed base vol) (hconsistent : Consistent bpb clusters base)
    (hsettled : base.Settled bpb) (hempty : file.firstCluster = 0)
    (hnone : base.nextFree = 0)
    (hcreate : createIn scratch rounds vol file target flags = some (vol', file', stored)) :
    stored = false ∧ LeftAlone bpb clusters base vol' := by
  obtain ⟨hfree, read, hread, hvol⟩ := haccessed.getFree hconsistent
  have hload : loadDirectory scratch rounds vol file =
      some ((fat32GetFreeCluster vol).1, none) := by
    rw [loadDirectory, if_pos hempty]
    exact if_pos (hfree.trans hnone)
  rw [createIn_unloaded hload] at hcreate
  obtain ⟨rfl, hrest⟩ := Prod.mk.inj (Option.some.inj hcreate)
  exact ⟨(Prod.mk.inj hrest).2.symm,
    hread.leftAlone_search hconsistent.cache hsettled hvol⟩

/-- With one, the cluster stays taken, wherever the call gives up. -/
theorem createIn_empty_taken {flags : ℕ} {file' : OpenFile}
    (haccessed : Accessed base vol) (hconsistent : Consistent bpb clusters base)
    (hempty : file.firstCluster = 0) (hfree : base.nextFree ≠ 0)
    (hcreate : createIn scratch rounds vol file target flags = some (vol', file', false)) :
    fatEntry vol' base.nextFree = fat32Eoc := by
  obtain ⟨taken, hended, hload⟩ :=
    @loadDirectory_taken _ _ rounds _ _ scratch _ haccessed hconsistent hempty hfree
  obtain ⟨hless, -⟩ := Volume.nextFree_spec hconsistent hfree
  have hentry := hended.entry (show base.nextFree < clusters + 2 by omega)
  cases hbuffer : scratch.grants.buffer with
  | false =>
      rw [hbuffer] at hload
      rw [createIn_unloaded hload] at hcreate
      obtain ⟨rfl, -⟩ := Prod.mk.inj (Option.some.inj hcreate)
      exact hentry
  | true =>
      rw [hbuffer] at hload
      have hgeo := hconsistent.geometry
      have hcs := hgeo.clusterSize_ge
      have hcount := hconsistent.cache.count
      have hword := hconsistent.clusterSize_lt (by omega)
      have hsize : taken.mount.bpb.clusterSizeBytes = bpb.clusterSizeBytes := by
        rw [hended.consistent.mounted.bpb_eq]
      have hlimit : ¬999999 < ((emptyDirectory taken base.nextFree).slot scratch
          target).shortFilenameMatches := by
        rw [emptyDirectory_slot (by omega) (by omega)]
        decide
      by_cases hlacks : (emptyDirectory taken base.nextFree).LacksRoom scratch target
      · obtain ⟨freeIndex, hroom⟩ := makeRoom_extends hlacks
        by_cases hsecond : taken.nextFree = 0
        · obtain ⟨ended, hextend, hzeroed⟩ := @extendDirectory_full _ _ taken scratch
            (emptyDirectory taken base.nextFree) .refl hended.consistent hsecond
          rw [hextend] at hroom
          rw [createIn_full hload hroom] at hcreate
          obtain ⟨rfl, -⟩ := Prod.mk.inj (Option.some.inj hcreate)
          rw [hzeroed.entries _ (by omega), if_neg hfree, hentry]
        · have hne : base.nextFree ≠ taken.nextFree := by
            intro heq
            have hfree' := (Volume.nextFree_spec hended.consistent hsecond).2
            rw [← heq, hentry] at hfree'
            exact absurd hfree' (by decide)
          obtain ⟨linked, extended, hextend, -⟩ := @extendDirectory_linked _ _ taken scratch
            (emptyDirectory taken base.nextFree) .refl hended.consistent hsecond
            (show base.nextFree < 2 ^ 28 by omega) hne
          rw [hextend] at hroom
          exact absurd hcreate (createIn_stores hload hroom hlimit)
      · exact absurd hcreate (createIn_stores hload (makeRoom_fits hlacks) hlimit)

/-- What is loaded of a directory with clusters. -/
theorem loadDirectory_spec {vol₁ : Volume} {loaded : Option Directory}
    (haccessed : Accessed base vol) (hconsistent : Consistent bpb clusters base)
    (hhas : file.firstCluster ≠ 0)
    (hload : loadDirectory scratch rounds vol file = some (vol₁, loaded)) :
    Accessed base vol₁ ∧ ∀ directory, loaded = some directory →
      directory.vol = vol₁ ∧ directory.lastCluster < 2 ^ 28 ∧
        (base.nextFree ≠ 0 → directory.lastCluster ≠ base.nextFree) := by
  have hgeo := hconsistent.geometry
  rw [loadDirectory, if_neg hhas] at hload
  obtain ⟨⟨vol₂, visited⟩, hwalk, heq⟩ := Option.map_eq_some_iff.mp hload
  obtain ⟨hwalked, hvisited, hnil, hlast⟩ := haccessed.createWalk hconsistent.cache hwalk
  have hword : fat32Eoc < 2 ^ 28 := by decide
  dsimp only at heq
  split at heq
  case isTrue =>
    obtain ⟨rfl, rfl⟩ := Prod.mk.inj heq
    have hsize : vol₂.mount.bpb.clusterSizeBytes = bpb.clusterSizeBytes := by
      rw [hwalked.geometry.bpb, hconsistent.mounted.bpb_eq]
    refine ⟨?_, ?_⟩
    · apply hwalked.fat32Read hgeo hconsistent.mounted.bpb_eq (Nat.mod_lt _ (by decide))
      · rw [hsize]
        intro hsome
        obtain ⟨k, hpower⟩ := hgeo.powerOfTwo
        by_contra hlarge
        have hk : 32 ≤ k := by
          by_contra hless
          rw [hpower] at hlarge
          exact hlarge (Nat.pow_lt_pow_right (by decide) (by omega))
        apply hsome
        rw [hpower]
        exact Nat.mod_eq_zero_of_dvd
          (Dvd.dvd.mul_left (Nat.pow_dvd_pow 2 hk) visited.length)
      · intro hsome
        by_contra hlarge
        have hempty := hnil.mpr (by omega)
        rw [hempty, List.length_nil, Nat.zero_mul] at hsome
        exact hsome rfl
    · intro directory hdirectory
      obtain rfl := Option.some.inj hdirectory
      dsimp only
      rw [List.getLastD_eq_getLast?]
      cases hend : visited.getLast? with
      | none => exact ⟨rfl, by decide, fun hfree => hfree.symm⟩
      | some last =>
          have hbelow := hvisited last (List.mem_of_getLast? hend)
          refine ⟨rfl, show last < 2 ^ 28 by omega, ?_⟩
          rintro hfree rfl
          obtain ⟨hless, hzero⟩ := Volume.nextFree_spec hconsistent hfree
          have hmark := hlast _ hend (by omega)
          rw [hzero] at hmark
          exact absurd hmark (by decide)
  case isFalse =>
    obtain ⟨rfl, rfl⟩ := Prod.mk.inj heq
    refine ⟨hwalked, ?_⟩
    intro _ hnone
    cases hnone

/-- In a directory with clusters the call gives up cleanly under this condition. -/
theorem createIn_parent_alone {flags : ℕ} {file' : OpenFile} {stored : Bool}
    (haccessed : Accessed base vol) (hconsistent : Consistent bpb clusters base)
    (hsettled : base.Settled bpb) (hhas : file.firstCluster ≠ 0)
    (hclean : ParentClean scratch rounds vol file target)
    (hcreate : createIn scratch rounds vol file target flags = some (vol', file', stored)) :
    stored = false ∧ LeftAlone bpb clusters base vol' := by
  cases hload : loadDirectory scratch rounds vol file with
  | none =>
      rw [createIn, hload] at hcreate
      cases hcreate
  | some result =>
      obtain ⟨vol₁, loaded⟩ := result
      obtain ⟨hread, hdirectory⟩ := loadDirectory_spec haccessed hconsistent hhas hload
      cases loaded with
      | none =>
          rw [createIn_unloaded hload] at hcreate
          obtain ⟨rfl, hrest⟩ := Prod.mk.inj (Option.some.inj hcreate)
          exact ⟨(Prod.mk.inj hrest).2.symm, hread.leftAlone hconsistent.cache hsettled⟩
      | some directory =>
          obtain ⟨rfl, -⟩ := hdirectory directory rfl
          obtain ⟨hlack, hroomy⟩ := hclean _ directory hload
          by_cases hlacks : directory.LacksRoom scratch target
          · obtain ⟨hfull, hmark⟩ := hlack hlacks
            rw [haccessed.nextFree_eq hconsistent] at hfull
            rw [haccessed.entry hconsistent.cache (by omega)] at hmark
            obtain ⟨freeIndex, hroom⟩ := makeRoom_extends hlacks
            obtain ⟨ended, hextend, hended⟩ :=
              @extendDirectory_full _ _ _ scratch _ hread hconsistent hfull
            rw [hextend] at hroom
            rw [createIn_full hload hroom] at hcreate
            obtain ⟨rfl, hrest⟩ := Prod.mk.inj (Option.some.inj hcreate)
            exact ⟨(Prod.mk.inj hrest).2.symm, hended.leftAlone hsettled hmark⟩
          · rw [createIn_limit hload (makeRoom_fits hlacks) (hroomy hlacks)] at hcreate
            obtain ⟨rfl, hrest⟩ := Prod.mk.inj (Option.some.inj hcreate)
            exact ⟨(Prod.mk.inj hrest).2.symm, hread.leftAlone hconsistent.cache hsettled⟩

/-- And if it gives up and leaves the table alone, the condition holds. -/
theorem createIn_parent_clean {flags : ℕ} {file' : OpenFile}
    (haccessed : Accessed base vol) (hconsistent : Consistent bpb clusters base)
    (hhas : file.firstCluster ≠ 0)
    (hcreate : createIn scratch rounds vol file target flags = some (vol', file', false))
    (halone : LeftAlone bpb clusters base vol') :
    ParentClean scratch rounds vol file target := by
  intro vol₁ directory hload
  obtain ⟨hread, hdirectory⟩ := loadDirectory_spec haccessed hconsistent hhas hload
  obtain ⟨rfl, hlast, hne⟩ := hdirectory directory rfl
  rw [haccessed.nextFree_eq hconsistent, haccessed.entry hconsistent.cache (by omega)]
  constructor
  · intro hlacks
    obtain ⟨freeIndex, hroom⟩ := makeRoom_extends hlacks
    by_cases hfull : base.nextFree = 0
    · obtain ⟨ended, hextend, hended⟩ :=
        @extendDirectory_full _ _ _ scratch _ hread hconsistent hfull
      rw [hextend] at hroom
      rw [createIn_full hload hroom] at hcreate
      obtain ⟨rfl, -⟩ := Prod.mk.inj (Option.some.inj hcreate)
      refine ⟨hfull, ?_⟩
      rw [← halone.entries 0 (by omega), hended.entry (by omega)]
    · obtain ⟨linked, extended, hextend, hentry⟩ :=
        @extendDirectory_linked _ _ _ scratch _ hread hconsistent hfull hlast (hne hfull)
      rw [hextend] at hroom
      by_cases hlimit : 999999 < (directory.slot scratch target).shortFilenameMatches
      · rw [createIn_limit hload hroom hlimit] at hcreate
        obtain ⟨rfl, -⟩ := Prod.mk.inj (Option.some.inj hcreate)
        obtain ⟨hless, hzero⟩ := Volume.nextFree_spec hconsistent hfull
        have hfree := halone.free (show base.nextFree < clusters + 2 by omega) hzero
        exact absurd (hentry.symm.trans hfree) (by decide)
      · exact absurd hcreate (createIn_stores hload hroom hlimit)
  · intro hfits
    by_contra hlimit
    exact createIn_stores hload (makeRoom_fits hfits) hlimit hcreate

end Exits

/-! ## The call -/

section Call

variable (root : Root) (scratch : Scratch) (rounds : ℕ) (vol : Volume) (parent : VFile)
  (path : CString) (flags : ℕ)

/-- The call comes to this parent directory. -/
structure Reaches (target : Target) (opened : Volume) (directory : VFile) : Prop where
  nonempty : path ≠ []
  granted : scratch.grants.truncPath = true
  targetOf : Fat32.target path = some target
  opens : openParent root scratch vol parent target = some (opened, some directory)

/-- The condition on the directory that the new file gets into, if it comes to this: one
without clusters finds none that is free. -/
def CreateClean : Prop :=
  ∀ target opened directory, Reaches root scratch vol parent path target opened directory →
    if directory.file.firstCluster = 0 then opened.nextFree = 0
    else ParentClean scratch rounds opened directory.file target

end Call

section Iff

variable {root : Root} {scratch : Scratch} {rounds clusters : ℕ} {vol : Volume}
  {parent : VFile} {path : CString} {flags : ℕ} {bpb : Bpb}

theorem Reaches.unique {target target' : Target} {opened opened' : Volume}
    {directory directory' : VFile}
    (hreaches : Reaches root scratch vol parent path target opened directory)
    (hreaches' : Reaches root scratch vol parent path target' opened' directory') :
    target = target' ∧ opened = opened' ∧ directory = directory' := by
  obtain rfl := Option.some.inj (hreaches.targetOf.symm.trans hreaches'.targetOf)
  obtain ⟨rfl, heq⟩ :=
    Prod.mk.inj (Option.some.inj (hreaches.opens.symm.trans hreaches'.opens))
  exact ⟨rfl, rfl, Option.some.inj heq⟩

/-- Before it has come to a directory, the call stores nothing and only reads. -/
theorem createEntries_early {base vol' : Volume} {file' : OpenFile} {stored : Option Target}
    (haccessed : Accessed base vol) (hnever : ∀ target opened directory,
      ¬Reaches root scratch vol parent path target opened directory)
    (hcreate : createEntries root scratch rounds vol parent path flags =
      some (vol', file', stored)) : stored = none ∧ Accessed base vol' := by
  rw [createEntries] at hcreate
  split at hcreate
  case isTrue =>
    obtain ⟨rfl, hrest⟩ := Prod.mk.inj (Option.some.inj hcreate)
    exact ⟨(Prod.mk.inj hrest).2.symm, haccessed⟩
  case isFalse hpath =>
    split at hcreate
    case isTrue =>
      obtain ⟨rfl, hrest⟩ := Prod.mk.inj (Option.some.inj hcreate)
      exact ⟨(Prod.mk.inj hrest).2.symm, haccessed⟩
    case isFalse hgranted =>
      cases htarget : Fat32.target path with
      | none =>
          rw [htarget] at hcreate
          cases hcreate
      | some target =>
          rw [htarget] at hcreate
          dsimp only at hcreate
          cases hopen : openParent root scratch vol parent target with
          | none =>
              rw [hopen] at hcreate
              cases hcreate
          | some result =>
              obtain ⟨opened, found⟩ := result
              cases found with
              | none =>
                  rw [hopen] at hcreate
                  obtain ⟨rfl, hrest⟩ := Prod.mk.inj (Option.some.inj hcreate)
                  exact ⟨(Prod.mk.inj hrest).2.symm, haccessed.openParent hopen⟩
              | some directory =>
                  exact absurd ⟨hpath, Bool.eq_true_of_not_eq_false hgranted, htarget, hopen⟩
                    (hnever target opened directory)

theorem Reaches.createEntries_eq {target : Target} {opened : Volume} {directory : VFile}
    (hreaches : Reaches root scratch vol parent path target opened directory) :
    createEntries root scratch rounds vol parent path flags =
      (createIn scratch rounds opened directory.file target flags).map fun made =>
        (made.1, if target.parentPath = none then made.2.1 else parent.file,
          if made.2.2 then some target else none) := by
  rw [createEntries, if_neg hreaches.nonempty, if_neg (by rw [hreaches.granted]; decide),
    hreaches.targetOf]
  dsimp only
  rw [hreaches.opens]

/-- Under the condition nothing is stored, and everything is left alone. -/
theorem CreateClean.alone {vol' : Volume} {file' : OpenFile} {stored : Option Target}
    (hclean : CreateClean root scratch rounds vol parent path)
    (hconsistent : Consistent bpb clusters vol) (hsettled : vol.Settled bpb)
    (hcreate : createEntries root scratch rounds vol parent path flags =
      some (vol', file', stored)) : stored = none ∧ LeftAlone bpb clusters vol vol' := by
  by_cases hsome : ∃ target opened directory,
      Reaches root scratch vol parent path target opened directory
  · obtain ⟨target, opened, directory, hreaches⟩ := hsome
    have haccessed := Accessed.refl.openParent hreaches.opens
    have hhere := hclean target opened directory hreaches
    rw [hreaches.createEntries_eq] at hcreate
    obtain ⟨⟨vol₁, file₁, made⟩, hmade, heq⟩ := Option.map_eq_some_iff.mp hcreate
    obtain ⟨rfl, hrest⟩ := Prod.mk.inj heq
    obtain ⟨rfl, halone⟩ : made = false ∧ LeftAlone bpb clusters vol vol₁ := by
      split at hhere
      case isTrue hempty =>
        rw [haccessed.nextFree_eq hconsistent] at hhere
        exact createIn_empty_alone haccessed hconsistent hsettled hempty hhere hmade
      case isFalse hhas =>
        exact createIn_parent_alone haccessed hconsistent hsettled hhas hhere hmade
    exact ⟨(Prod.mk.inj hrest).2.symm, halone⟩
  · push Not at hsome
    obtain ⟨hnone, haccessed⟩ := createEntries_early .refl hsome hcreate
    exact ⟨hnone, haccessed.leftAlone hconsistent.cache hsettled⟩

/-- A call that gives up before it stores anything, and leaves everything alone, meets the
condition. -/
theorem LeftAlone.createClean {vol' : Volume} {file' : OpenFile}
    (halone : LeftAlone bpb clusters vol vol') (hconsistent : Consistent bpb clusters vol)
    (hcreate : createEntries root scratch rounds vol parent path flags =
      some (vol', file', none)) : CreateClean root scratch rounds vol parent path := by
  intro target opened directory hreaches
  have haccessed := Accessed.refl.openParent hreaches.opens
  rw [hreaches.createEntries_eq] at hcreate
  obtain ⟨⟨vol₁, file₁, made⟩, hmade, heq⟩ := Option.map_eq_some_iff.mp hcreate
  obtain ⟨rfl, hrest⟩ := Prod.mk.inj heq
  cases made with
  | true => cases (Prod.mk.inj hrest).2
  | false =>
      split
      case isTrue hempty =>
        rw [haccessed.nextFree_eq hconsistent]
        by_contra hfree
        have htaken := createIn_empty_taken haccessed hconsistent hempty hfree hmade
        obtain ⟨hless, hzero⟩ := Volume.nextFree_spec hconsistent hfree
        have hkept := halone.free (show vol.nextFree < clusters + 2 by omega) hzero
        exact absurd (htaken.symm.trans hkept) (by decide)
      case isFalse hhas =>
        exact createIn_parent_clean haccessed hconsistent hhas hmade halone

end Iff

def zeroScratch (grants : Grants) : Scratch where
  grants := grants
  malloc := fun _ => true
  truncPath := fun _ => 0
  stack := fun _ => 0
  directory := fun _ => 0
  extended := fun _ => 0
  dirents := fun _ => 0

def smallRoot : VFile := ⟨0x10, ⟨2, 0, 0x10, 0, 0⟩⟩

end KimisOS.Fat32
