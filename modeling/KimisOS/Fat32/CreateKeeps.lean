import KimisOS.Fat32.Agreement
import KimisOS.Fat32.CreateFailure

/-!
# A create keeps the cache

Behind `fat32_create`, whether it stores a file or gives up, the cache still agrees with
the device, if the parent directory has its clusters in the table and a mark at the end
that stops the walk.
-/

namespace KimisOS.Fat32

open KimisOS.ByteStore
open KimisOS.Walk

/-- A volume with a consistent cache, up to reads of entries behind the table. -/
def Sound (bpb : Bpb) (clusters : ℕ) (vol : Volume) : Prop :=
  ∃ base, Consistent bpb clusters base ∧ Accessed base vol

/-- The file has an entry in a directory, and both have their clusters in the table. -/
structure Charted (bpb : Bpb) (clusters : ℕ) (table : ℕ → ℕ) (heads : Bool → ℕ)
    (chains : Bool → List ℕ) (d : Bool) (file : OpenFile) : Prop where
  wellFormed : WellFormed table (clusters + 2) heads chains
  first : file.firstCluster = heads false
  entry : EntryIn bpb chains d file

section Create

variable {bpb : Bpb} {clusters : ℕ} {base vol vol' : Volume}

theorem Consistent.sound (hconsistent : Consistent bpb clusters vol) :
    Sound bpb clusters vol :=
  ⟨vol, hconsistent, .refl⟩

theorem Consistent.searchFrom (hconsistent : Consistent bpb clusters vol) (start : ℕ) :
    Consistent bpb clusters (vol.searchFrom start) := by
  have hmounted := hconsistent.mounted
  have hcache := hconsistent.cache
  exact ⟨hconsistent.geometry,
    ⟨hmounted.bpb_eq, hmounted.block, hmounted.fatStart, hmounted.dataStart⟩,
    ⟨hcache.count, hcache.block, hcache.empty, hcache.size, hcache.window, hcache.clean⟩⟩

theorem Accessed.searchFrom (haccessed : Accessed base vol) (start : ℕ) :
    Accessed (base.searchFrom start) (vol.searchFrom start) := by
  induction haccessed with
  | refl => exact .refl
  | @get vol index _ hindex ih =>
      have hentry : (fat32GetNextCluster vol index).1.searchFrom start =
          (fat32GetNextCluster (vol.searchFrom start) index).1 := by
        change (cacheEntry vol index).searchFrom start = cacheEntry (vol.searchFrom start) index
        rcases cacheEntry_eq vol index with ⟨hbounds, heq⟩ | ⟨hbounds, heq⟩
        · rw [heq]
          exact (if_pos hbounds).symm
        · rw [heq]
          exact (if_neg hbounds).symm
      rw [hentry]
      exact ih.get hindex

/-- With an entry of the table in the cache, the volume is consistent. -/
theorem Accessed.consistent (haccessed : Accessed base vol)
    (hconsistent : Consistent bpb clusters base) {index : ℕ} (hindex : index < clusters + 2)
    (hcovered : fat32CheckBounds vol.mount index = true) : Consistent bpb clusters vol := by
  exact ⟨hconsistent.geometry, hconsistent.mounted.congr haccessed.geometry,
    haccessed.cacheInv hconsistent.cache hindex hcovered⟩

theorem Accessed.entries (haccessed : Accessed base vol)
    (hconsistent : Consistent bpb clusters base) :
    ∀ index < clusters + 2, fatEntry vol index = fatEntry base index :=
  fun _ hindex => haccessed.entry hconsistent.cache hindex

/-- Changing free entries keeps the chains. -/
theorem WellFormed.of_used {File : Type*} {table table' : ℕ → ℕ} {count : ℕ}
    {heads : File → ℕ} {chains : File → List ℕ} (hwell : WellFormed table count heads chains)
    (htwo : 2 ≤ count) (hcount : count ≤ fat32EocMin)
    (hsame : ∀ index < count, table index ≠ 0 → table' index = table index) :
    WellFormed table' count heads chains := by
  refine ⟨?_, ?_, ?_, hwell.disjoint⟩
  · rw [hsame 0 (by omega) hwell.first]
    exact hwell.first
  · rw [hsame 1 (by omega) hwell.second]
    exact hwell.second
  · intro x
    apply (hwell.chain x).congr
    intro cluster hmem
    exact hsame cluster ((hwell.chain x).range cluster hmem).2
      ((hwell.chain x).ne_zero hcount hmem)

variable {heads : Bool → ℕ} {chains : Bool → List ℕ} {d : Bool} {file : OpenFile}
  {table : ℕ → ℕ}

/-- `fat32_write` keeps the cache consistent. -/
theorem Charted.write {malloc : ℕ → Bool} {buffer : ℕ → UInt8} {offset count : ℕ}
    (hcharted : Charted bpb clusters (fatEntry vol) heads chains d file)
    (hconsistent : Consistent bpb clusters vol) :
    Consistent bpb clusters (fat32Write malloc vol file buffer offset count).vol :=
  (fat32Write_keeps_chains malloc bpb clusters vol heads chains false d file buffer offset count
    hconsistent hcharted.wellFormed hcharted.first hcharted.entry).1

/-- The walk of `fat32_create` visits the rest of the chain, if its mark stops it. -/
theorem Accessed.createWalk_chain {rounds head p current : ℕ} {chain visited : List ℕ}
    (haccessed : Accessed base vol) (hconsistent : Consistent bpb clusters base)
    (hchain : IsChain (fatEntry base) (clusters + 2) head chain)
    (hmark : ∀ last, chain.getLast? = some last → fat32Eoc ≤ fatEntry base last)
    (hp : chain[p]? = some current)
    (hwalk : Fat32.createWalk rounds vol current = some (vol', visited)) :
    visited = chain.drop p ∧ Consistent bpb clusters vol' ∧ Accessed base vol' := by
  have hcount := hconsistent.geometry.count_le
  induction rounds generalizing vol p current visited with
  | zero =>
      have hrange := hchain.range current (List.mem_of_getElem? hp)
      have hgoes : current < fat32Eoc := by
        unfold fat32EocMin at hcount
        unfold fat32Eoc
        omega
      rw [Fat32.createWalk, follow, if_pos (decide_eq_true hgoes)] at hwalk
      cases hwalk
  | succ rounds ih =>
      have hrange := hchain.range current (List.mem_of_getElem? hp)
      have hgoes : current < fat32Eoc := by
        unfold fat32EocMin at hcount
        unfold fat32Eoc
        omega
      have hword : current < 2 ^ 28 := by
        unfold fat32EocMin at hcount
        omega
      have hread := haccessed.get hword
      have hvalue := haccessed.value hconsistent.cache hrange.2
      have hlt := (List.getElem?_eq_some_iff.mp hp).1
      have hdrop : chain.drop p = current :: chain.drop (p + 1) := by
        rw [List.drop_eq_getElem_cons hlt]
        congr 1
        exact Option.some.inj ((List.getElem?_eq_getElem hlt).symm.trans hp)
      rw [Fat32.createWalk, follow, if_pos (decide_eq_true hgoes)] at hwalk
      obtain ⟨walked, hrest, heq⟩ := Option.map_eq_some_iff.mp hwalk
      obtain ⟨rfl, rfl⟩ := Prod.mk.inj heq
      rw [hdrop]
      rw [← Fat32.createWalk, hvalue] at hrest
      rcases hchain.next hcount hp with ⟨-, hp'⟩ | ⟨-, hlast⟩
      · obtain ⟨hvisited, hrest⟩ := ih hread hp' hrest
        exact ⟨congrArg _ hvisited, hrest⟩
      · have hend : fat32Eoc ≤ fatEntry base current := by
          apply hmark
          rw [List.getLast?_eq_getElem?, ← hlast, Nat.add_sub_cancel]
          exact hp
        have hstop : ¬decide (fatEntry base current < fat32Eoc) = true := by
          simpa using hend
        rw [hlast, List.drop_length]
        have hconsistent' : Consistent bpb clusters (fat32GetNextCluster vol current).1 :=
          hread.consistent hconsistent hrange.2 (checkBounds_cacheEntry vol hword)
        cases rounds with
        | zero =>
            rw [Fat32.createWalk, follow, if_neg hstop] at hrest
            obtain ⟨hvol, hnil⟩ := Prod.mk.inj (Option.some.inj hrest)
            rw [← hvol, ← hnil]
            exact ⟨rfl, hconsistent', hread⟩
        | succ rounds =>
            rw [Fat32.createWalk, follow, if_neg hstop] at hrest
            obtain ⟨hvol, hnil⟩ := Prod.mk.inj (Option.some.inj hrest)
            rw [← hvol, ← hnil]
            exact ⟨rfl, hconsistent', hread⟩

variable {scratch : Scratch} {rounds : ℕ} {vol₁ : Volume} {directory extended : Directory}

/-- The mark at the end of a directory stops the walk of `fat32_create`. -/
def StopsWalk (table : ℕ → ℕ) (chain : List ℕ) : Prop :=
  ∀ last, chain.getLast? = some last → fat32Eoc ≤ table last

/-- What is loaded along the chain of a directory. -/
structure LoadedAlong (bpb : Bpb) (clusters : ℕ) (scratch : Scratch) (base : Volume)
    (file : OpenFile) (chain : List ℕ) (directory : Directory) : Prop where
  last : chain.getLast? = some directory.lastCluster
  count : directory.clusterCount = chain.length
  read : ∃ walked, Consistent bpb clusters walked ∧ Accessed base walked ∧
    directory.buffer = (fat32Read walked file scratch.directory 0
      (chain.length * bpb.clusterSizeBytes % 2 ^ 32)).buffer

theorem loadDirectory_along {chain : List ℕ} {loaded : Option Directory}
    (haccessed : Accessed base vol) (hconsistent : Consistent bpb clusters base)
    (hchain : IsChain (fatEntry base) (clusters + 2) file.firstCluster chain)
    (hmark : StopsWalk (fatEntry base) chain) (hhas : file.firstCluster ≠ 0)
    (hload : loadDirectory scratch rounds vol file = some (vol₁, loaded)) :
    Consistent bpb clusters vol₁ ∧ Accessed base vol₁ ∧ ∀ directory, loaded = some directory →
      directory.vol = vol₁ ∧
        LoadedAlong bpb clusters scratch base file chain directory := by
  have hgeo := hconsistent.geometry
  have hfirst := hchain.first hhas
  obtain ⟨hread, -⟩ := loadDirectory_spec haccessed hconsistent hhas hload
  rw [loadDirectory, if_neg hhas] at hload
  obtain ⟨⟨vol₂, visited⟩, hwalk, heq⟩ := Option.map_eq_some_iff.mp hload
  obtain ⟨hvisited, hconsistent₂, haccessed₂⟩ :=
    haccessed.createWalk_chain hconsistent hchain hmark hfirst hwalk
  rw [List.drop_zero] at hvisited
  subst hvisited
  dsimp only at heq
  rw [hconsistent₂.mounted.bpb_eq] at heq
  split at heq
  case isTrue =>
    obtain ⟨rfl, rfl⟩ := Prod.mk.inj heq
    have hne : visited ≠ [] := List.ne_nil_of_mem (List.mem_of_getElem? hfirst)
    have hword := hgeo.clusterSize_le hne hchain
    have hmod := Nat.mod_lt (visited.length * bpb.clusterSizeBytes)
      (show 0 < 2 ^ 32 by decide)
    have hagree := (hconsistent₂.agree (haccessed₂.entries hconsistent)).fat32Read
      scratch.directory 0 (visited.length * bpb.clusterSizeBytes % 2 ^ 32)
      hchain hfirst (by omega)
    refine ⟨hagree.agree.first, hread, ?_⟩
    intro directory hdirectory
    obtain rfl := Option.some.inj hdirectory
    refine ⟨rfl, ?_, rfl, vol₂, hconsistent₂, haccessed₂, rfl⟩
    dsimp only
    rw [List.getLastD_eq_getLast?, List.getLast?_eq_some_getLast hne]
    rfl
  case isFalse =>
    obtain ⟨rfl, rfl⟩ := Prod.mk.inj heq
    refine ⟨hconsistent₂, haccessed₂, ?_⟩
    intro _ hnone
    cases hnone

/-- Adding a cluster to a directory. -/
theorem extendDirectory_consistent (hconsistent : Consistent bpb clusters directory.vol)
    (hlast : directory.lastCluster < clusters + 2) :
    Consistent bpb clusters (extendDirectory scratch directory).1 ∧
      ∀ extended, (extendDirectory scratch directory).2 = some extended →
        extended.vol = (extendDirectory scratch directory).1 ∧
        ∃ cluster < clusters, cluster ≠ 0 ∧ fatEntry directory.vol cluster = 0 ∧
          ∀ other < clusters + 2, fatEntry extended.vol other =
            Function.update (Function.update (fatEntry directory.vol) cluster fat32Eoc)
              directory.lastCluster cluster other := by
  have hfound := (Accessed.refl.getFree hconsistent).1
  have hcount := hconsistent.cache.count
  by_cases hfree : directory.vol.nextFree = 0
  · obtain ⟨ended, hextend, hended⟩ :=
      @extendDirectory_full bpb clusters directory.vol scratch directory .refl hconsistent hfree
    rw [hextend]
    refine ⟨hended.consistent, ?_⟩
    intro _ hnone
    cases hnone
  · obtain ⟨hless, hzero⟩ := Volume.nextFree_spec hconsistent hfree
    have hended := Accessed.refl.ended hconsistent
      (show directory.vol.nextFree < clusters + 2 by omega)
    obtain ⟨hcache, hentries, hgeometry, -⟩ :=
      hended.consistent.cache.set hlast directory.vol.nextFree
    have hconsistent' : Consistent bpb clusters (fat32SetNextCluster (fat32SetNextCluster
        (fat32GetFreeCluster directory.vol).1 directory.vol.nextFree fat32Eoc)
          directory.lastCluster directory.vol.nextFree) :=
      ⟨hconsistent.geometry, hended.consistent.mounted.congr hgeometry, hcache⟩
    rw [extendDirectory]
    dsimp only
    rw [hfound, if_neg hfree]
    refine ⟨hconsistent', ?_⟩
    intro extended hextended
    obtain rfl := Option.some.inj hextended
    refine ⟨rfl, _, hless, hfree, hzero, ?_⟩
    intro other hother
    dsimp only
    rw [hentries other hother, hended.entries other hother]
    by_cases hone : other = directory.lastCluster
    · rw [if_pos hone, hone, Function.update_self]
      exact Nat.mod_eq_of_lt (by omega)
    · rw [if_neg hone, Function.update_of_ne hone, Function.update_apply]

/-- The file has clusters in the table, and an entry in a directory that has. -/
def Chartable (bpb : Bpb) (clusters : ℕ) (vol : Volume) (file : OpenFile) : Prop :=
  ∃ heads chains d, Charted bpb clusters (fatEntry vol) heads chains d file

/-- The directory with one more cluster. -/
theorem Charted.linked {table' : ℕ → ℕ} {cluster last : ℕ}
    (hcharted : Charted bpb clusters table heads chains d file)
    (hcount : clusters + 2 ≤ fat32EocMin) (hfree : table cluster = 0)
    (hlt : cluster < clusters + 2) (hlast : (chains false).getLast? = some last)
    (hentries : ∀ other < clusters + 2, table' other =
      Function.update (Function.update table cluster fat32Eoc) last cluster other) :
    Charted bpb clusters table' heads
      (Function.update chains false (chains false ++ [cluster])) d file := by
  have hwell := hcharted.wellFormed
  have hgrown : Grown table table (clusters + 2) heads chains false (heads false) [] :=
    .refl hwell
  have hne : last ≠ cluster := by
    rintro rfl
    exact (hwell.chain false).ne_zero hcount (List.mem_of_getLast? hlast) hfree
  have hlinked := (hgrown.append hcount hfree hlt (by rwa [List.append_nil])).wellFormed
  rw [List.nil_append, Function.update_eq_self, Function.update_comm hne] at hlinked
  refine ⟨hlinked.congr (by omega) hentries, hcharted.first, ?_⟩
  obtain ⟨hstart, hinside⟩ := hcharted.entry
  cases d with
  | true => exact ⟨hstart, hinside⟩
  | false =>
      refine ⟨?_, ?_⟩
      · rw [Function.update_self, List.getElem?_append_left
          (List.getElem?_eq_some_iff.mp hstart).1]
        exact hstart
      · rw [Function.update_self, List.length_append]
        omega

/-- What may be done with a directory that has been loaded. -/
structure Extends (bpb : Bpb) (clusters : ℕ) (scratch : Scratch) (file : OpenFile)
    (directory : Directory) : Prop where
  consistent : Consistent bpb clusters directory.vol
  charted : Chartable bpb clusters directory.vol file
  extendable : Consistent bpb clusters (extendDirectory scratch directory).1
  extended : ∀ extended, (extendDirectory scratch directory).2 = some extended →
    extended.vol = (extendDirectory scratch directory).1 ∧
      Chartable bpb clusters extended.vol file

theorem Charted.loaded_some {loaded : Option Directory} (haccessed : Accessed base vol)
    (hconsistent : Consistent bpb clusters base)
    (hcharted : Charted bpb clusters (fatEntry base) heads chains d file)
    (hmark : StopsWalk (fatEntry base) (chains false)) (hhas : file.firstCluster ≠ 0)
    (hload : loadDirectory scratch rounds vol file = some (vol₁, loaded)) :
    Sound bpb clusters vol₁ ∧
      ∀ directory, loaded = some directory → Extends bpb clusters scratch file directory := by
  have hchain := hcharted.wellFormed.chain false
  rw [← hcharted.first] at hchain
  obtain ⟨hconsistent₁, haccessed₁, hdirectory⟩ :=
    loadDirectory_along haccessed hconsistent hchain hmark hhas hload
  refine ⟨hconsistent₁.sound, ?_⟩
  intro directory hloaded
  obtain ⟨rfl, hloadedAlong⟩ := hdirectory directory hloaded
  have hlast := hloadedAlong.last
  have hrange := (hcharted.wellFormed.chain false).range _ (List.mem_of_getLast? hlast)
  have hcharted₁ : Charted bpb clusters (fatEntry directory.vol) heads chains d file :=
    ⟨hcharted.wellFormed.congr (by omega) (haccessed₁.entries hconsistent), hcharted.first,
      hcharted.entry⟩
  obtain ⟨hextend, hextended⟩ :=
    @extendDirectory_consistent bpb clusters scratch directory hconsistent₁ hrange.2
  refine ⟨hconsistent₁, ⟨heads, chains, d, hcharted₁⟩, hextend, ?_⟩
  intro extended hsome
  obtain ⟨hvol, cluster, hlt, -, hfree, hentries⟩ := hextended extended hsome
  exact ⟨hvol, _, _, _, hcharted₁.linked hconsistent.geometry.count_le hfree (by omega) hlast
    hentries⟩

/-- A directory without clusters gets its first one, and a second one behind it. -/
theorem Charted.loaded_none {loaded : Option Directory} (haccessed : Accessed base vol)
    (hconsistent : Consistent bpb clusters base)
    (hcharted : Charted bpb clusters (fatEntry base) heads chains d file)
    (hnone : file.firstCluster = 0)
    (hload : loadDirectory scratch rounds vol file = some (vol₁, loaded)) :
    Sound bpb clusters vol₁ ∧
      ∀ directory, loaded = some directory → Extends bpb clusters scratch file directory := by
  have hcount := hconsistent.geometry.count_le
  obtain ⟨hfound, read, hread, hvol⟩ := haccessed.getFree hconsistent
  rw [loadDirectory, if_pos hnone] at hload
  dsimp only at hload
  by_cases hfree : (fat32GetFreeCluster vol).2 = 0
  · rw [if_pos hfree] at hload
    obtain ⟨rfl, rfl⟩ := Prod.mk.inj (Option.some.inj hload)
    constructor
    · rcases hvol with hvol | ⟨start, hvol⟩
      · rw [hvol]
        exact ⟨base, hconsistent, hread⟩
      · rw [hvol]
        exact ⟨_, hconsistent.searchFrom start, hread.searchFrom start⟩
    · intro _ hnone
      cases hnone
  · rw [if_neg hfree, hfound] at hload
    rw [hfound] at hfree
    obtain ⟨hless, hzero⟩ := Volume.nextFree_spec hconsistent hfree
    have hended := haccessed.ended hconsistent (show base.nextFree < clusters + 2 by omega)
    obtain ⟨rfl, rfl⟩ := Prod.mk.inj (Option.some.inj hload)
    refine ⟨hended.consistent.sound, ?_⟩
    intro directory hdirectory
    split at hdirectory
    case isFalse => cases hdirectory
    case isTrue =>
      obtain rfl := Option.some.inj hdirectory
      have hwell : WellFormed (fatEntry (fat32SetNextCluster (fat32GetFreeCluster vol).1
          base.nextFree fat32Eoc)) (clusters + 2) heads chains := by
        apply hcharted.wellFormed.of_used (by omega) hcount
        intro index hindex hused
        rw [hended.entries index hindex, if_neg]
        rintro rfl
        exact hused hzero
      obtain ⟨hextend, hextended⟩ := @extendDirectory_consistent bpb clusters scratch
        ⟨_, fun _ => 0, 1, base.nextFree⟩ hended.consistent
        (show base.nextFree < clusters + 2 by omega)
      refine ⟨hended.consistent, ⟨heads, chains, d, hwell, hcharted.first, hcharted.entry⟩,
        hextend, ?_⟩
      intro extended hsome
      obtain ⟨hsame, cluster, hlt, -, hzero', hentries⟩ := hextended extended hsome
      refine ⟨hsame, heads, chains, d, ?_, hcharted.first, hcharted.entry⟩
      apply hcharted.wellFormed.of_used (by omega) hcount
      intro index hindex hused
      have hfirst : index ≠ base.nextFree := by
        rintro rfl
        exact hused hzero
      have hentry := hended.entries index hindex
      rw [if_neg hfirst] at hentry
      have hsecond : index ≠ cluster := by
        rintro rfl
        exact hused (hentry.symm.trans hzero')
      rw [hentries index hindex, Function.update_of_ne hfirst, Function.update_of_ne hsecond]
      exact hentry

theorem Extends.makeRoom {slot : Slot} {total : ℕ} {vol₂ : Volume}
    {room : Option (Directory × ℕ)} (hextends : Extends bpb clusters scratch file directory)
    (hroom : Fat32.makeRoom scratch directory slot total = (vol₂, room)) :
    Consistent bpb clusters vol₂ ∧ ∀ extended freeIndex, room = some (extended, freeIndex) →
      Consistent bpb clusters extended.vol ∧ Chartable bpb clusters extended.vol file := by
  rw [Fat32.makeRoom] at hroom
  dsimp only at hroom
  split at hroom
  case isTrue =>
    obtain ⟨rfl, rfl⟩ := Prod.mk.inj hroom
    refine ⟨hextends.extendable, ?_⟩
    intro extended freeIndex hsome
    obtain ⟨grown, hgrown, heq⟩ := Option.map_eq_some_iff.mp hsome
    obtain ⟨rfl, -⟩ := Prod.mk.inj heq
    obtain ⟨hvol, hcharted⟩ := hextends.extended grown hgrown
    exact ⟨hvol ▸ hextends.extendable, hcharted⟩
  case isFalse =>
    obtain ⟨rfl, rfl⟩ := Prod.mk.inj hroom
    refine ⟨hextends.consistent, ?_⟩
    intro extended freeIndex hsome
    obtain ⟨rfl, -⟩ := Prod.mk.inj (Option.some.inj hsome)
    exact ⟨hextends.consistent, hextends.charted⟩

/-- `fat32_create` in a directory. -/
theorem Charted.createIn {target : Target} {flags : ℕ} {made : OpenFile × Bool}
    (haccessed : Accessed base vol) (hconsistent : Consistent bpb clusters base)
    (hcharted : Charted bpb clusters (fatEntry base) heads chains d file)
    (hmark : StopsWalk (fatEntry base) (chains false))
    (hmade : Fat32.createIn scratch rounds vol file target flags = some (vol', made)) :
    Sound bpb clusters vol' := by
  rw [Fat32.createIn] at hmade
  cases hload : loadDirectory scratch rounds vol file with
  | none =>
      rw [hload] at hmade
      cases hmade
  | some result =>
      obtain ⟨vol₁, loaded⟩ := result
      have hloaded : Sound bpb clusters vol₁ ∧ ∀ directory, loaded = some directory →
          Extends bpb clusters scratch file directory := by
        by_cases hhas : file.firstCluster = 0
        · exact hcharted.loaded_none haccessed hconsistent hhas hload
        · exact hcharted.loaded_some haccessed hconsistent hmark hhas hload
      rw [hload] at hmade
      cases loaded with
      | none =>
          obtain ⟨rfl, -⟩ := Prod.mk.inj (Option.some.inj hmade)
          exact hloaded.1
      | some directory =>
          have hextends := hloaded.2 directory rfl
          dsimp only at hmade
          cases hroom : makeRoom scratch directory (findSlot directory.buffer
              directory.entryCount target.totalDirents (target.bytes scratch.truncPath 0))
              target.totalDirents with
          | mk vol₂ room =>
              obtain ⟨hconsistent₂, hextended⟩ := hextends.makeRoom hroom
              rw [hroom] at hmade
              cases room with
              | none =>
                  obtain ⟨rfl, -⟩ := Prod.mk.inj (Option.some.inj hmade)
                  exact hconsistent₂.sound
              | some room =>
                  obtain ⟨extended, freeIndex⟩ := room
                  obtain ⟨hconsistent', heads', chains', d', hcharted'⟩ :=
                    hextended extended freeIndex rfl
                  dsimp only at hmade
                  split at hmade
                  case isTrue =>
                    obtain ⟨rfl, -⟩ := Prod.mk.inj (Option.some.inj hmade)
                    exact hconsistent₂.sound
                  case isFalse =>
                    split at hmade
                    case isTrue => cases hmade
                    case isFalse =>
                      obtain ⟨returned, -, heq⟩ := Option.map_eq_some_iff.mp hmade
                      obtain ⟨rfl, -⟩ := Prod.mk.inj heq
                      exact (hcharted'.write hconsistent').sound

end Create

end KimisOS.Fat32
