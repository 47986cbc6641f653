import KimisOS.Fat32.CreateKeeps
import KimisOS.Fat32.ExtendDirectory
import KimisOS.Fat32.StoreAlong

/-!
# A create that fails behind its stores

When the entries have been stored, the last `fat32_open` can still fail.  Such a call
has changed something: an entry of the table if it has taken a cluster, and else the
first byte of the entry that was free.
-/

namespace KimisOS.Fat32

open KimisOS.ByteStore

/-! ## The write-back of the root directory -/

section Root

variable {bpb : Bpb} {clusters index a : ℕ} {base vol vol' : Volume} {file : OpenFile}
  {device device' : ℕ → UInt8}

/-- A word of four bytes that are not 0 stays different from 0 if only fields of an entry
have changed and the size is not 0. -/
theorem readU32_fields (hentry : 32 ∣ a) (hword : 4 ∣ index)
    (hsize : file.sizeBytes % 2 ^ 32 ≠ 0) (hfour : ∀ k < 4, device (index + k) ≠ 0)
    (hbytes : ∀ b, device' b = device b ∨
      ∃ k, IsField k ∧ b = a + k ∧ device' b = file.fieldByte k) :
    readU32 device' index ≠ 0 := by
  intro hzero
  have hall : ∀ k < 4, device' (index + k) = 0 := by
    intro k hk
    rw [← UInt8.toNat_inj]
    rw [readU32] at hzero
    interval_cases k
    · exact show (device' index).toNat = 0 by omega
    · exact show (device' (index + 1)).toNat = 0 by omega
    · exact show (device' (index + 2)).toNat = 0 by omega
    · exact show (device' (index + 3)).toNat = 0 by omega
  -- only the four bytes of the size are four fields behind one another at such a place
  have hfields : ∀ k < 4, ∃ j, IsField j ∧ index + k = a + j ∧ file.fieldByte j = 0 := by
    intro k hk
    rcases hbytes (index + k) with hkept | ⟨j, hj, heq, hvalue⟩
    · exact absurd (hkept.symm.trans (hall k hk)) (hfour k hk)
    · exact ⟨j, hj, heq, hvalue.symm.trans (hall k hk)⟩
  have hplace : index = a + 28 := by
    obtain ⟨j₀, hj₀, hat₀, -⟩ := hfields 0 (by decide)
    obtain ⟨j₁, hj₁, hat₁, -⟩ := hfields 1 (by decide)
    obtain ⟨j₂, hj₂, hat₂, -⟩ := hfields 2 (by decide)
    unfold IsField at hj₀ hj₁ hj₂
    omega
  have hdigit : ∀ k < 4, file.sizeBytes / 256 ^ k % 256 = 0 := by
    intro k hk
    obtain ⟨j, -, hat, hvalue⟩ := hfields k hk
    obtain rfl : j = 28 + k := by omega
    rw [OpenFile.fieldByte, if_neg (by omega), if_neg (by omega), if_neg (by omega),
      Nat.add_sub_cancel_left, ← UInt8.toNat_inj] at hvalue
    exact hvalue
  have h₀ := hdigit 0 (by decide)
  have h₁ := hdigit 1 (by decide)
  have h₂ := hdigit 2 (by decide)
  have h₃ := hdigit 3 (by decide)
  omega

/-- The four bytes of the mark of the end. -/
theorem readU32_eoc (hmark : readU32 device index = fat32Eoc) :
    ∀ k < 4, device (index + k) ≠ 0 := by
  intro k hk hzero
  have h₀ := (device index).toNat_lt
  have h₁ := (device (index + 1)).toNat_lt
  have h₂ := (device (index + 2)).toNat_lt
  have h₃ := (device (index + 3)).toNat_lt
  rw [← UInt8.toNat_inj] at hzero
  unfold readU32 fat32Eoc at hmark
  interval_cases k
  · change (device index).toNat = 0 at hzero
    omega
  · change (device (index + 1)).toNat = 0 at hzero
    omega
  · change (device (index + 2)).toNat = 0 at hzero
    omega
  · change (device (index + 3)).toNat = 0 at hzero
    omega

/-- After stores elsewhere and accesses, an entry is the one of the table, or the one that
is on the device. -/
theorem Accessed.entry_stored {bytes : ℕ → UInt8} {offset count entries : ℕ}
    (hcache : CacheInv entries vol) (hindex : index < entries)
    (haccessed : Accessed (fwrite vol bytes offset count) vol') :
    fatEntry vol' index = fatEntry vol index ∨
      diskEntry vol index = fatEntry vol index ∧
        fatEntry vol' index = diskEntry (fwrite vol bytes offset count) index := by
  have hbase : fatEntry (fwrite vol bytes offset count) index = fatEntry vol index ∨
      diskEntry vol index = fatEntry vol index ∧
        fatEntry (fwrite vol bytes offset count) index =
          diskEntry (fwrite vol bytes offset count) index := by
    by_cases hcovered : fat32CheckBounds vol.mount index = true
    · left
      rw [fatEntry, fatEntry, if_pos hcovered]
      exact if_pos hcovered
    · right
      rw [fatEntry, fatEntry, if_neg hcovered]
      exact ⟨rfl, if_neg hcovered⟩
  by_cases hdirty : vol.mount.fatCacheAllocated = true ∧ vol.mount.cacheDirty = true
  · have hcache' : CacheInv entries (fwrite vol bytes offset count) := by
      refine ⟨hcache.count, hcache.block, hcache.empty, hcache.size, hcache.window, ?_⟩
      intro _ hclean
      exact absurd (hdirty.2.symm.trans hclean) (by decide)
    rw [haccessed.entry hcache' hindex]
    exact hbase
  · have hdisk : diskEntry vol index = fatEntry vol index := by
      rw [← hcache.readU32_writtenBack hindex, writtenBack, if_neg hdirty, diskEntry]
    rcases haccessed.kept with rfl | hreloaded
    · exact hbase
    · right
      have hback : writtenBack (fwrite vol bytes offset count) =
          (fwrite vol bytes offset count).device := if_neg hdirty
      have hdevice := hreloaded.device
      rw [hback] at hdevice
      have hsame : diskEntry vol' index = diskEntry (fwrite vol bytes offset count) index := by
        rw [diskEntry, diskEntry, hreloaded.entryOffset_eq, hdevice]
      refine ⟨hdisk, ?_⟩
      rw [fatEntry]
      split
      case isTrue hcovered => rw [hreloaded.cached_eq hcache.block hcovered, hsame]
      case isFalse => exact hsame

/-- Entries of the table lie at multiples of 4. -/
theorem Consistent.entryOffset_dvd (hconsistent : Consistent bpb clusters vol) (index : ℕ) :
    4 ∣ entryOffset vol.mount index := by
  obtain ⟨k, hk⟩ := hconsistent.geometry.sector_dvd
  rw [entryOffset, hconsistent.mounted.bpb_eq, hk, Nat.mul_left_comm]
  generalize vol.mount.fatStartSector * k = m
  omega

/-- An entry that marks the end stays different from 0, wherever the root directory is
written back. -/
theorem Accessed.entry_root (hconsistent : Consistent bpb clusters vol) (hroot : file.IsRoot)
    (hsize : file.sizeBytes % 2 ^ 32 ≠ 0) (hindex : index < clusters + 2)
    (hmark : fatEntry vol index = fat32Eoc)
    (haccessed : Accessed (direntWriteback vol file) vol') : fatEntry vol' index ≠ 0 := by
  obtain ⟨hcluster, hoffset⟩ := hroot
  have hwalk : direntClusterFrom (file.direntOffset / (vol.mount.bpb.clusterSizeBytes / 32))
      (file.direntOffset / (vol.mount.bpb.clusterSizeBytes / 32)) vol file.direntCluster =
        (vol, some 0) := by
    rw [hoffset, Nat.zero_div, hcluster, direntClusterFrom]
  have hentry := hconsistent.mounted.clusterOffset_dvd hconsistent.geometry 0
  rw [direntWriteback_eq hwalk, hoffset, Nat.zero_mod] at haccessed
  generalize vol.mount.clusterOffset 0 % 2 ^ 32 = a at hentry haccessed
  rcases haccessed.entry_stored hconsistent.cache hindex with hkept | ⟨hdisk, hstored⟩
  · rw [hkept, hmark]
    decide
  · rw [hstored, diskEntry]
    apply readU32_fields hentry (hconsistent.entryOffset_dvd index) hsize
      (readU32_eoc (hdisk.trans hmark))
    intro b
    exact page_byte a b

end Root

/-! ## Entries that are used -/

section Used

variable {bpb : Bpb} {clusters index : ℕ} {vol : Volume} {file : OpenFile}
  {heads : Bool → ℕ} {chains : Bool → List ℕ} {d : Bool}

/-- `fat32_write` frees no cluster. -/
theorem Charted.write_used {malloc : ℕ → Bool} {buffer : ℕ → UInt8} {offset count : ℕ}
    (hcharted : Charted bpb clusters (fatEntry vol) heads chains d file)
    (hconsistent : Consistent bpb clusters vol) (hindex : index < clusters + 2)
    (hused : fatEntry vol index ≠ 0) :
    fatEntry (fat32Write malloc vol file buffer offset count).vol index ≠ 0 := by
  obtain ⟨flat', new, hholds, -⟩ := @fat32Write_spec Bool _ heads chains false d bpb clusters
    vol _ file malloc buffer offset count _ hconsistent.shows hcharted.wellFormed
    hcharted.first hcharted.entry rfl
  rw [hholds.shows.entries index hindex]
  by_cases hin : index ∈ chains false ++ new
  · exact hholds.grown.isChain.ne_zero hconsistent.geometry.count_le hin
  · rw [hholds.grown.same index hin]
    exact hused

end Used

/-! ## What a stored create leaves -/

/-- The parent directory has its clusters in the table, with a mark at the end that stops
the walk of `fat32_create`; it has its entry in a directory, or is the root directory. -/
inductive ParentCharted (bpb : Bpb) (clusters : ℕ) (table : ℕ → ℕ) (file : OpenFile) : Prop
  | entry {heads : Bool → ℕ} {chains : Bool → List ℕ} {d : Bool}
      (hcharted : Charted bpb clusters table heads chains d file)
      (hmark : StopsWalk table (chains false))
  | root {chain : List ℕ} (hroot : file.IsRoot) (hsize : file.sizeBytes < 2 ^ 32)
      (hhas : file.firstCluster ≠ 0)
      (hsecond : table 1 ≠ 0)
      (hchain : IsChain table (clusters + 2) file.firstCluster chain)
      (hmark : StopsWalk table chain)

section Stored

variable {bpb : Bpb} {clusters rounds flags : ℕ} {base vol vol' vol'' : Volume}
  {file file' : OpenFile} {scratch : Scratch} {target : Target}
  {directory extended : Directory} {chain : List ℕ}

theorem ParentCharted.exists_chain {table : ℕ → ℕ}
    (hparent : ParentCharted bpb clusters table file) :
    table 1 ≠ 0 ∧ ∃ chain, IsChain table (clusters + 2) file.firstCluster chain ∧
      StopsWalk table chain := by
  cases hparent with
  | entry hcharted hmark =>
      have hchain := hcharted.wellFormed.chain false
      rw [← hcharted.first] at hchain
      exact ⟨hcharted.wellFormed.second, _, hchain, hmark⟩
  | root _ _ _ hsecond hchain hmark => exact ⟨hsecond, _, hchain, hmark⟩

/-- A cluster that was free is taken. -/
def Takes (clusters : ℕ) (base vol : Volume) : Prop :=
  ∃ cluster < clusters + 2, fatEntry base cluster = 0 ∧ fatEntry vol cluster ≠ 0

theorem Takes.not_alone (htakes : Takes clusters base vol) :
    ¬LeftAlone bpb clusters base vol := by
  intro halone
  obtain ⟨cluster, hcluster, hfree, hused⟩ := htakes
  exact hused (halone.free hcluster hfree)

theorem Takes.accessed (htakes : Takes clusters base vol)
    (hconsistent : Consistent bpb clusters vol) (haccessed : Accessed vol vol') :
    Takes clusters base vol' := by
  obtain ⟨cluster, hcluster, hfree, hused⟩ := htakes
  refine ⟨cluster, hcluster, hfree, ?_⟩
  rw [haccessed.entry hconsistent.cache hcluster]
  exact hused

/-- A directory without clusters keeps the one that it has been given. -/
theorem Charted.stored_taken {heads : Bool → ℕ} {chains : Bool → List ℕ} {d : Bool}
    (hcharted : Charted bpb clusters (fatEntry base) heads chains d file)
    (haccessed : Accessed base vol) (hconsistent : Consistent bpb clusters base)
    (hsettled : base.Settled bpb) (hnone : file.firstCluster = 0)
    (hmade : Fat32.createIn scratch rounds vol file target flags =
      some (vol', file', true)) :
    Consistent bpb clusters vol' ∧ Takes clusters base vol' := by
  by_cases hfree : base.nextFree = 0
  · have hempty := createIn_empty_alone haccessed hconsistent hsettled hnone hfree hmade
    cases hempty.1
  · obtain ⟨hless, hzero⟩ := Volume.nextFree_spec hconsistent hfree
    obtain ⟨vol₁, directory, vol₂, extended, freeIndex, hload, hroom, -, rfl⟩ :=
      createIn_made hmade
    have hextends := (hcharted.loaded_none haccessed hconsistent hnone hload).2 directory rfl
    obtain ⟨hconsistent', heads', chains', d', hcharted'⟩ :=
      (hextends.makeRoom hroom).2 extended freeIndex rfl
    obtain ⟨taken, hended, htaken⟩ := @loadDirectory_taken bpb clusters rounds base vol scratch
      file haccessed hconsistent hnone hfree
    rw [htaken] at hload
    obtain ⟨rfl, hbuffer⟩ := Prod.mk.inj (Option.some.inj hload)
    have hdirectory : directory = emptyDirectory taken base.nextFree := by
      split at hbuffer
      case isTrue => exact (Option.some.inj hbuffer).symm
      case isFalse => cases hbuffer
    have hused : fatEntry extended.vol base.nextFree ≠ 0 := by
      by_cases hlacks : directory.LacksRoom scratch target
      · obtain ⟨freeIndex', hgrown⟩ := makeRoom_extends hlacks
        rw [hgrown] at hroom
        obtain ⟨grown, hsome, heq⟩ := Option.map_eq_some_iff.mp (Prod.mk.inj hroom).2
        obtain ⟨rfl, -⟩ := Prod.mk.inj heq
        rw [hdirectory] at hsome
        obtain ⟨-, cluster, -, hne, -, hentries⟩ :=
          (@extendDirectory_consistent bpb clusters scratch
            (emptyDirectory taken base.nextFree) hended.consistent
            (show base.nextFree < clusters + 2 by omega)).2 grown hsome
        rw [hentries _ (by omega)]
        exact ne_of_eq_of_ne (Function.update_self _ _ _) hne
      · rw [makeRoom_fits hlacks] at hroom
        obtain ⟨rfl, -⟩ := Prod.mk.inj (Option.some.inj (Prod.mk.inj hroom).2)
        rw [hdirectory]
        exact ne_of_eq_of_ne (hended.entry (by omega)) (by decide)
    exact ⟨hcharted'.write hconsistent',
      base.nextFree, by omega, hzero, hcharted'.write_used hconsistent' (by omega) hused⟩

/-- A directory with clusters gets another one behind its last. -/
structure Linked (bpb : Bpb) (clusters : ℕ) (base : Volume) (file : OpenFile)
    (chain : List ℕ) (cluster : ℕ) (extended : Directory) : Prop where
  consistent : Consistent bpb clusters extended.vol
  range : 2 ≤ cluster ∧ cluster < clusters + 2
  free : fatEntry base cluster = 0
  mark : fatEntry extended.vol cluster = fat32Eoc
  isChain : IsChain (fatEntry extended.vol) (clusters + 2) file.firstCluster
    (chain ++ [cluster])
  count : extended.clusterCount = (chain ++ [cluster]).length

theorem LoadedAlong.linked (hone : fatEntry base 1 ≠ 0)
    (hconsistent : Consistent bpb clusters directory.vol)
    (hentries : ∀ index < clusters + 2, fatEntry directory.vol index = fatEntry base index)
    (hchain : IsChain (fatEntry base) (clusters + 2) file.firstCluster chain)
    (hloaded : LoadedAlong bpb clusters scratch base file chain directory)
    (hextend : (extendDirectory scratch directory).2 = some extended) :
    ∃ cluster, Linked bpb clusters base file chain cluster extended := by
  have hgeo := hconsistent.geometry
  have hlast := hchain.range _ (List.mem_of_getLast? hloaded.last)
  obtain ⟨hconsistent', hgrown⟩ :=
    @extendDirectory_consistent bpb clusters scratch directory hconsistent hlast.2
  obtain ⟨hvol, cluster, hless, hne, hfree, hupdate⟩ := hgrown extended hextend
  have hfree' : fatEntry base cluster = 0 := by
    rw [← hentries cluster (by omega), hfree]
  have hapart : cluster ∉ chain := fun hmem => hchain.ne_zero hgeo.count_le hmem hfree'
  have hother : directory.lastCluster ≠ cluster := by
    rintro rfl
    exact hapart (List.mem_of_getLast? hloaded.last)
  have hrange : 2 ≤ cluster ∧ cluster < clusters + 2 := by
    have hnotOne : cluster ≠ 1 := by
      rintro rfl
      exact hone hfree'
    omega
  refine ⟨cluster, hvol ▸ hconsistent', hrange, hfree', ?_, ?_, ?_⟩
  · rw [hupdate cluster hrange.2, Function.update_of_ne hother.symm, Function.update_self]
  · have hlinked := ((hchain.congr (fun c hmem => hentries c (hchain.range c hmem).2)).append
      hloaded.last hapart hrange (show fat32EocMin ≤ fat32Eoc by decide))
    rw [Function.update_comm hother] at hlinked
    exact hlinked.congr fun c hmem => hupdate c (hlinked.range c hmem).2
  · rw [List.length_append, List.length_singleton, ← hloaded.count]
    rw [extendDirectory] at hextend
    dsimp only at hextend
    split at hextend
    case isTrue => cases hextend
    case isFalse =>
      obtain rfl := Option.some.inj hextend
      rfl

/-- The added cluster stays taken, also when the write-back of the root directory falls
into the table. -/
theorem ParentCharted.stored_linked {slot : Slot} {freeIndex : ℕ}
    (hparent : ParentCharted bpb clusters (fatEntry base) file)
    (haccessed : Accessed base vol) (hconsistent : Consistent bpb clusters base)
    (hhas : file.firstCluster ≠ 0)
    (hload : loadDirectory scratch rounds vol file = some (directory.vol, some directory))
    (hextend : (extendDirectory scratch directory).2 = some extended)
    (hlast : Accessed (writeDirectory scratch extended file target slot freeIndex flags).vol
      vol') : Takes clusters base vol' := by
  obtain ⟨hsecond, chain, hchain, hmark⟩ := hparent.exists_chain
  obtain ⟨hconsistent₁, haccessed₁, hdirectory⟩ :=
    loadDirectory_along haccessed hconsistent hchain hmark hhas hload
  obtain ⟨cluster, hlinked⟩ := (hdirectory directory rfl).2.linked hsecond hconsistent₁
    (haccessed₁.entries hconsistent) hchain hextend
  refine ⟨cluster, hlinked.range.2, hlinked.free, ?_⟩
  cases hparent with
  | entry hcharted hmark =>
      have hextends := (hcharted.loaded_some haccessed hconsistent hmark hhas hload).2
        directory rfl
      obtain ⟨-, heads', chains', d', hcharted'⟩ := hextends.extended extended hextend
      rw [hlast.entry (hcharted'.write hlinked.consistent).cache hlinked.range.2]
      apply hcharted'.write_used hlinked.consistent hlinked.range.2
      rw [hlinked.mark]
      decide
  | root hroot hsize =>
      have hgeo := hlinked.consistent.geometry
      have hcs := hgeo.clusterSize_ge
      have hbelow := hgeo.chain_le hlinked.isChain
      have hbefore := hgeo.table_before
      have hcount : extended.vol.mount.bpb.clusterSizeBytes * extended.clusterCount % 2 ^ 32 =
          (chain ++ [cluster]).length * bpb.clusterSizeBytes := by
        rw [hlinked.consistent.mounted.bpb_eq, hlinked.count, Nat.mul_comm]
        exact Nat.mod_eq_of_lt (by omega)
      obtain ⟨vol₂, halong, hwrite⟩ := fat32Write_along hlinked.consistent (fun _ _ => rfl)
        hlinked.isChain hhas (le_of_eq hcount)
      rw [writeDirectory, hwrite] at hlast
      have hone : bpb.clusterSizeBytes ≤ (chain ++ [cluster]).length * bpb.clusterSizeBytes :=
        Nat.le_mul_of_pos_left _ (by simp)
      rw [hcount] at hlast
      apply hlast.entry_root halong.consistent ?_ ?_ hlinked.range.2
      · rw [halong.entries cluster hlinked.range.2, hlinked.mark]
      · exact ⟨(file.extended_direntCluster _ _).trans hroot.1,
          (file.extended_direntOffset _ _).trans hroot.2⟩
      · rw [OpenFile.extended]
        split
        case isTrue =>
          dsimp only
          omega
        case isFalse => omega

theorem Geometry.fileAddress_dvd (hgeo : Geometry bpb clusters) (chain : List ℕ) (i : ℕ) :
    32 ∣ bpb.fileAddress chain (32 * i) := by
  rw [Bpb.fileAddress, Bpb.clusterStart, Bpb.dataOffset]
  apply Nat.dvd_add
  · apply Nat.dvd_add
    · exact Dvd.dvd.mul_left hgeo.sector_dvd _
    · exact Dvd.dvd.mul_left hgeo.entry_dvd _
  · rw [Nat.dvd_mod_iff hgeo.entry_dvd]
    exact Nat.dvd_mul_right 32 i

/-- The contents of the directory have been loaded. -/
theorem LoadedAlong.buffer_eq
    (hloaded : LoadedAlong bpb clusters scratch base file chain directory)
    (hconsistent : Consistent bpb clusters base) (hends : base.EndsBeforeData bpb)
    (hhas : file.firstCluster ≠ 0)
    (hchain : IsChain (fatEntry base) (clusters + 2) file.firstCluster chain) {x : ℕ}
    (hx : x < chain.length * bpb.clusterSizeBytes) :
    directory.buffer x = base.device (bpb.fileAddress chain x) := by
  have hgeo := hconsistent.geometry
  have hcs := hgeo.clusterSize_ge
  have hbelow := hgeo.chain_le hchain
  have hbefore := hgeo.table_before
  obtain ⟨walked, hwalked, hread, hbuffer⟩ := hloaded.read
  have hsame := hread.sameData hends.refl
  have hchain' := hchain.congr fun c hmem =>
    hread.entries hconsistent c (hchain.range c hmem).2
  rw [Nat.mod_eq_of_lt (by omega)] at hbuffer
  obtain ⟨hbytes, -⟩ := @fat32Read_bytes bpb clusters walked file.firstCluster chain file 0
    (chain.length * bpb.clusterSizeBytes) scratch.directory
    ⟨hgeo, hwalked.mounted, hchain', .refl hwalked.cache⟩ (hchain.first hhas) (by omega)
    (by rw [Nat.zero_div]; decide) (by rw [Nat.div_lt_iff_lt_mul (by omega)]; omega)
  have hplace := @store_inside scratch.directory 0
    (min (chain.length * bpb.clusterSizeBytes) (chain.length * bpb.clusterSizeBytes - 0))
    (fun t => readByte bpb walked chain (0 + t)) x (by omega)
  rw [Nat.zero_add, ← hbytes, ← hbuffer, hsame.ends.readByte_eq,
    hsame.bytes _ (bpb.dataOffset_le_fileAddress chain x)] at hplace
  exact hplace

/-- The first byte of the first of at most 127 entries of a long name. -/
theorem lfnEntry_first {name : CString} {sfn stale : ℕ → UInt8} {total : ℕ}
    (hsome : 2 ≤ total) (htotal : total ≤ 128) :
    newEntry name sfn stale flags total 0 0 ≠ 0 := by
  have hmarks : ∀ n < 128, UInt8.ofNat (n ||| 0x40) ≠ 0 := by decide
  rw [newEntry, if_neg (by omega), lfnEntry, if_pos rfl, if_pos (by omega)]
  exact hmarks _ (by omega)

/-- Where the entries fit, the first one is not the free one that was there. -/
theorem LoadedAlong.stored_over (hconsistent : Consistent bpb clusters base)
    (hends : base.EndsBeforeData bpb)
    (hconsistent₁ : Consistent bpb clusters directory.vol)
    (haccessed : Accessed base directory.vol) (hhas : file.firstCluster ≠ 0)
    (hchain : IsChain (fatEntry base) (clusters + 2) file.firstCluster chain)
    (hloaded : LoadedAlong bpb clusters scratch base file chain directory)
    (hfits : ¬directory.LacksRoom scratch target) (hname : target.name ≠ [])
    (htotal : target.totalDirents ≤ 128)
    (hlast : Accessed (writeDirectory scratch directory file target
      (directory.slot scratch target) (directory.slot scratch target).freeIndex flags).vol
      vol') : ¬LeftAlone bpb clusters base vol' := by
  have hgeo := hconsistent.geometry
  have hcs := hgeo.clusterSize_ge
  have hbelow := hgeo.chain_le hchain
  have hbefore := hgeo.table_before
  have hcount : directory.vol.mount.bpb.clusterSizeBytes * directory.clusterCount % 2 ^ 32 =
      chain.length * bpb.clusterSizeBytes := by
    rw [hconsistent₁.mounted.bpb_eq, hloaded.count, Nat.mul_comm]
    exact Nat.mod_eq_of_lt (by omega)
  obtain ⟨hlt, hfree⟩ : (directory.slot scratch target).freeIndex < directory.entryCount ∧
      directory.buffer (32 * (directory.slot scratch target).freeIndex) = 0 := by
    refine searchSlot_found (Nat.succ_pos _) rfl ?_
    by_contra hnot
    exact hfits (.inl (Bool.eq_false_of_not_eq_true hnot))
  rw [Directory.entryCount, hcount] at hlt
  have htwo : 2 ≤ target.totalDirents := by
    have hlength := List.length_pos_iff.mpr hname
    rw [Target.totalDirents]
    omega
  generalize (directory.slot scratch target).freeIndex = freeIndex at hlt hfree hlast
  have hx : 32 * freeIndex < chain.length * bpb.clusterSizeBytes := by omega
  have hdata := bpb.dataOffset_le_fileAddress chain (32 * freeIndex)
  have hold := hloaded.buffer_eq hconsistent hends hhas hchain hx
  rw [hfree] at hold
  have hchain₁ := hchain.congr fun c hmem =>
    haccessed.entries hconsistent c (hchain.range c hmem).2
  have hends₁ := haccessed.sameData hends.refl
  obtain ⟨vol₂, halong, hwrite⟩ := fat32Write_along hconsistent₁ (fun _ _ => rfl) hchain₁ hhas
    (le_of_eq hcount)
  rw [writeDirectory, hwrite, hcount] at hlast
  rw [hcount] at halong
  have hnew := (halong.stored hends₁.ends).bytes (32 * freeIndex) (by omega) (by omega)
  obtain ⟨hends₂, hkept⟩ := direntWriteback_first (halong.ends hends₁.ends) hgeo
    halong.consistent.mounted hdata (hgeo.fileAddress_dvd chain freeIndex)
  rw [hnew] at hkept
  intro halone
  have hafter := (hlast.sameData hends₂.refl).bytes _ hdata
  rw [halone.contents _ hdata, ← hold, hkept, placeEntries] at hafter
  have hplace := fun bytes => @store_inside directory.buffer (32 * freeIndex)
    (32 * target.totalDirents) bytes 0 (Nat.mul_pos (by decide) (Nat.succ_pos _))
  rw [Nat.add_zero] at hplace
  rw [hplace] at hafter
  exact lfnEntry_first htwo htotal hafter.symm

/-- A call that has stored the entries has not left everything alone. -/
theorem ParentCharted.createIn_stored
    (hparent : ParentCharted bpb clusters (fatEntry base) file)
    (haccessed : Accessed base vol) (hconsistent : Consistent bpb clusters base)
    (hends : base.EndsBeforeData bpb) (hname : target.name ≠ [])
    (hmade : createIn scratch rounds vol file target flags = some (vol', file', true))
    (hlast : Accessed vol' vol'') : ¬LeftAlone bpb clusters base vol'' := by
  by_cases hnone : file.firstCluster = 0
  · cases hparent with
    | entry hcharted =>
        obtain ⟨hconsistent', htakes⟩ :=
          hcharted.stored_taken haccessed hconsistent hends.settled hnone hmade
        exact (htakes.accessed hconsistent' hlast).not_alone
    | root _ _ hhas => exact absurd hnone hhas
  · obtain ⟨vol₁, directory, vol₂, extended, freeIndex, hload, hroom, htotal, rfl⟩ :=
      createIn_made hmade
    obtain ⟨-, chain, hchain, hmark⟩ := hparent.exists_chain
    obtain ⟨hconsistent₁, haccessed₁, hdirectory⟩ :=
      loadDirectory_along haccessed hconsistent hchain hmark hnone hload
    obtain ⟨rfl, hloaded⟩ := hdirectory directory rfl
    by_cases hlacks : directory.LacksRoom scratch target
    · obtain ⟨freeIndex', hgrown⟩ := makeRoom_extends hlacks
      rw [hgrown] at hroom
      obtain ⟨grown, hextend, heq⟩ := Option.map_eq_some_iff.mp (Prod.mk.inj hroom).2
      obtain ⟨rfl, -⟩ := Prod.mk.inj heq
      exact (hparent.stored_linked haccessed hconsistent hnone hload hextend hlast).not_alone
    · rw [makeRoom_fits hlacks] at hroom
      obtain ⟨rfl, rfl⟩ := Prod.mk.inj (Option.some.inj (Prod.mk.inj hroom).2)
      exact hloaded.stored_over hconsistent hends hconsistent₁ haccessed₁ hnone hchain hlacks
        hname htotal hlast

end Stored

/-! ## The call -/

section Call

variable (bpb : Bpb) (clusters : ℕ) (root : Root) (scratch : Scratch) (vol : Volume)
  (parent : VFile) (path : CString)

/-- Where the entries of the new file go, by the bytes in the clusters of the directory. -/
def slotBefore (chain : List ℕ) (target : Target) : Slot :=
  findSlot (fun x => vol.device (bpb.fileAddress chain x))
    (chain.length * bpb.clusterSizeBytes / 32) target.totalDirents
    (target.bytes scratch.truncPath 0)

/-- They have no room there. -/
def Crowded (chain : List ℕ) (target : Target) : Prop :=
  (slotBefore bpb scratch vol chain target).found = false ∨
    chain.length * bpb.clusterSizeBytes / 32 <
      ((slotBefore bpb scratch vol chain target).freeIndex + target.totalDirents) % 2 ^ 32

/-- In a directory with these clusters, if there is memory to load it: there is no room, no
free cluster, and entry 0 is the mark that it gets; or there is room, and the short names
are used up. -/
def CrowdedClean (chain : List ℕ) (target : Target) : Prop :=
  scratch.grants.buffer = true →
    (Crowded bpb scratch vol chain target → vol.nextFree = 0 ∧ fatEntry vol 0 = fat32Eoc) ∧
      (¬Crowded bpb scratch vol chain target →
        999999 < (slotBefore bpb scratch vol chain target).shortFilenameMatches)

/-- In the state before the call nothing can be stored, and a call that finds this out
changes nothing.  A directory without clusters finds none that is free. -/
def CleanBefore : Prop :=
  ∀ target opened directory chain,
    Reaches root scratch vol parent path target opened directory →
    IsChain (fatEntry vol) (clusters + 2) directory.file.firstCluster chain →
    if chain = [] then vol.nextFree = 0 else CrowdedClean bpb scratch vol chain target

/-- The cached window ends before the data area, and the directory that the call comes to
is in the table.  A path that ends with two slashes names a file with an empty name. -/
structure InOrder : Prop where
  window : vol.EndsBeforeData bpb
  name : ∀ target, Fat32.target path = some target → target.name ≠ []
  parents : ∀ target opened directory,
    Reaches root scratch vol parent path target opened directory →
      ParentCharted bpb clusters (fatEntry vol) directory.file

end Call

section Iff

variable {bpb : Bpb} {clusters rounds flags : ℕ} {root : Root} {scratch : Scratch}
  {vol vol' vol'' : Volume} {parent : VFile} {path : CString} {file' : OpenFile}
  {target : Target} {made : Created}

theorem InOrder.stored (horder : InOrder bpb clusters root scratch vol parent path)
    (hconsistent : Consistent bpb clusters vol)
    (hcreate : createEntries root scratch rounds vol parent path flags =
      some (vol', file', some target))
    (hlast : Accessed vol' vol'') : ¬LeftAlone bpb clusters vol vol'' := by
  by_cases hsome : ∃ target opened directory,
      Reaches root scratch vol parent path target opened directory
  · obtain ⟨reached, opened, directory, hreaches⟩ := hsome
    have haccessed := Accessed.refl.openParent hreaches.opens
    rw [hreaches.createEntries_eq] at hcreate
    obtain ⟨⟨vol₁, file₁, stored⟩, hmade, heq⟩ := Option.map_eq_some_iff.mp hcreate
    obtain ⟨rfl, hrest⟩ := Prod.mk.inj heq
    cases stored with
    | false => cases (Prod.mk.inj hrest).2
    | true =>
        exact (horder.parents _ _ _ hreaches).createIn_stored haccessed hconsistent
          horder.window (horder.name _ hreaches.targetOf) hmade hlast
  · push Not at hsome
    cases (createEntries_early .refl hsome hcreate).1

/-- The search looks at the first bytes of the entries only. -/
theorem searchSlot_congr {first first' : ℕ → UInt8} {count total i left : ℕ}
    {initial : UInt8} {slot : Slot} (htotal : 0 < total)
    (hsame : ∀ j < count, first j = first' j) :
    searchSlot first count total initial left i slot =
      searchSlot first' count total initial left i slot := by
  induction left generalizing i slot with
  | zero => rfl
  | succ left ih =>
      rw [searchSlot, searchSlot]
      by_cases hi : count ≤ i
      · rw [if_pos hi, if_pos hi]
      · rw [if_neg hi, if_neg hi, probe_eq htotal (by omega), probe_eq htotal (by omega)]
        dsimp only
        rw [hsame i (by omega), ih]

theorem LoadedAlong.slot_eq {base : Volume} {file : OpenFile} {chain : List ℕ}
    {directory : Directory}
    (hloaded : LoadedAlong bpb clusters scratch base file chain directory)
    (hconsistent : Consistent bpb clusters base) (hends : base.EndsBeforeData bpb)
    (hmounted : Mounted bpb directory.vol.mount) (hhas : file.firstCluster ≠ 0)
    (hchain : IsChain (fatEntry base) (clusters + 2) file.firstCluster chain) :
    directory.entryCount = chain.length * bpb.clusterSizeBytes / 32 ∧
      directory.slot scratch target = slotBefore bpb scratch base chain target := by
  have hbelow := hconsistent.geometry.chain_le hchain
  have hbefore := hconsistent.geometry.table_before
  have hcount : directory.entryCount = chain.length * bpb.clusterSizeBytes / 32 := by
    rw [Directory.entryCount, hmounted.bpb_eq, hloaded.count, Nat.mul_comm,
      Nat.mod_eq_of_lt (by omega)]
  refine ⟨hcount, ?_⟩
  rw [Directory.slot, slotBefore, findSlot, findSlot, hcount]
  apply searchSlot_congr (Nat.succ_pos _)
  intro i hi
  exact hloaded.buffer_eq hconsistent hends hhas hchain (by omega)

/-- A directory with clusters is loaded if there is memory for it. -/
theorem loadDirectory_granted {file : OpenFile} {vol₁ : Volume} {loaded : Option Directory}
    (hhas : file.firstCluster ≠ 0)
    (hload : loadDirectory scratch rounds vol file = some (vol₁, loaded)) :
    loaded.isSome = scratch.grants.buffer := by
  rw [loadDirectory, if_neg hhas] at hload
  obtain ⟨walked, -, heq⟩ := Option.map_eq_some_iff.mp hload
  dsimp only at heq
  split at heq
  case isTrue hbuffer =>
    obtain ⟨-, rfl⟩ := Prod.mk.inj heq
    rw [hbuffer, Option.isSome_some]
  case isFalse hbuffer =>
    obtain ⟨-, rfl⟩ := Prod.mk.inj heq
    rw [Bool.eq_false_of_not_eq_true hbuffer, Option.isSome_none]

/-- What a directory with clusters leaves room for can be told before the call. -/
theorem InOrder.parent_iff {opened : Volume} {directory : VFile} {chain : List ℕ}
    (horder : InOrder bpb clusters root scratch vol parent path)
    (hconsistent : Consistent bpb clusters vol)
    (hreaches : Reaches root scratch vol parent path target opened directory)
    (hchain : IsChain (fatEntry vol) (clusters + 2) directory.file.firstCluster chain)
    (hhas : directory.file.firstCluster ≠ 0)
    (hloads : (loadDirectory scratch rounds opened directory.file).isSome) :
    ParentClean scratch rounds opened directory.file target ↔
      CrowdedClean bpb scratch vol chain target := by
  have haccessed := Accessed.refl.openParent hreaches.opens
  obtain ⟨-, chain', hchain', hmark⟩ := (horder.parents _ _ _ hreaches).exists_chain
  obtain rfl := hchain.unique hchain' hconsistent.geometry.count_le
  obtain ⟨⟨vol₁, loaded⟩, hload⟩ := Option.isSome_iff_exists.mp hloads
  obtain ⟨hconsistent₁, -, hdirectory⟩ :=
    loadDirectory_along haccessed hconsistent hchain hmark hhas hload
  have hgranted := loadDirectory_granted hhas hload
  rw [ParentClean, CrowdedClean, hload, ← hgranted, haccessed.nextFree_eq hconsistent,
    haccessed.entry hconsistent.cache (by omega)]
  cases loaded with
  | none =>
      refine iff_of_true ?_ (fun hsome => by cases hsome)
      intro _ _ heq
      cases heq
  | some directory₁ =>
      obtain ⟨rfl, hloaded⟩ := hdirectory directory₁ rfl
      obtain ⟨hcount, hslot⟩ := @LoadedAlong.slot_eq bpb clusters scratch target vol
        directory.file chain directory₁ hloaded hconsistent horder.window
        hconsistent₁.mounted hhas hchain
      have hlacks : directory₁.LacksRoom scratch target ↔
          Crowded bpb scratch vol chain target := by
        rw [Directory.LacksRoom, hslot, hcount, Crowded]
      rw [← hlacks, ← hslot]
      constructor
      · exact fun hclean _ => hclean _ _ rfl
      · rintro hclean _ _ heq
        obtain ⟨-, hsome⟩ := Prod.mk.inj (Option.some.inj heq)
        obtain rfl := Option.some.inj hsome
        exact hclean rfl

theorem InOrder.reached_iff {opened : Volume} {directory : VFile} {chain : List ℕ}
    (horder : InOrder bpb clusters root scratch vol parent path)
    (hconsistent : Consistent bpb clusters vol)
    (hcreate : (createEntries root scratch rounds vol parent path flags).isSome)
    (hreaches : Reaches root scratch vol parent path target opened directory)
    (hchain : IsChain (fatEntry vol) (clusters + 2) directory.file.firstCluster chain) :
    (if directory.file.firstCluster = 0 then opened.nextFree = 0
        else ParentClean scratch rounds opened directory.file target) ↔
      if chain = [] then vol.nextFree = 0 else CrowdedClean bpb scratch vol chain target := by
  by_cases hnil : chain = []
  · have hfirst : directory.file.firstCluster = 0 := by
      rw [← hchain.starts, hnil, List.headD_nil]
    rw [if_pos hfirst, if_pos hnil,
      (Accessed.refl.openParent hreaches.opens).nextFree_eq hconsistent]
  · have hhas := hchain.head_ne hnil
    rw [if_neg hhas, if_neg hnil]
    apply horder.parent_iff hconsistent hreaches hchain hhas
    rw [hreaches.createEntries_eq, Option.isSome_map] at hcreate
    cases hload : loadDirectory scratch rounds opened directory.file with
    | none =>
        rw [createIn, hload] at hcreate
        cases hcreate
    | some loaded => rfl

/-- With the window and the directories in order, the condition is one on the state before
the call. -/
theorem InOrder.clean_iff (horder : InOrder bpb clusters root scratch vol parent path)
    (hconsistent : Consistent bpb clusters vol)
    (hcreate : (createEntries root scratch rounds vol parent path flags).isSome) :
    CreateClean root scratch rounds vol parent path ↔
      CleanBefore bpb clusters root scratch vol parent path := by
  constructor
  · intro hclean target opened directory chain hreaches hchain
    exact (horder.reached_iff hconsistent hcreate hreaches hchain).mp
      (hclean target opened directory hreaches)
  · intro hbefore target opened directory hreaches
    obtain ⟨-, chain, hchain, -⟩ := (horder.parents _ _ _ hreaches).exists_chain
    exact (horder.reached_iff hconsistent hcreate hreaches hchain).mpr
      (hbefore target opened directory chain hreaches hchain)

/-- Where a call has come to when it returns. -/
theorem fat32Create_cases
    (hcreate : fat32Create root scratch rounds vol parent path flags = some made) :
    (∃ file', createEntries root scratch rounds vol parent path flags =
        some (made.vol, file', none)) ∨
      ∃ vol' file' target, createEntries root scratch rounds vol parent path flags =
        some (vol', file', some target) ∧ Accessed vol' made.vol := by
  rw [fat32Create] at hcreate
  cases hentries : createEntries root scratch rounds vol parent path flags with
  | none =>
      rw [hentries] at hcreate
      cases hcreate
  | some result =>
      obtain ⟨vol', file', stored⟩ := result
      rw [hentries] at hcreate
      cases stored with
      | none =>
          obtain rfl := Option.some.inj hcreate
          exact .inl ⟨file', rfl⟩
      | some target =>
          obtain ⟨⟨opened, found⟩, hopen, rfl⟩ := Option.map_eq_some_iff.mp hcreate
          exact .inr ⟨vol', file', target, rfl, Accessed.refl.fat32OpenWith hopen⟩

theorem createEntries_isSome
    (hcreate : fat32Create root scratch rounds vol parent path flags = some made) :
    (createEntries root scratch rounds vol parent path flags).isSome := by
  rw [fat32Create] at hcreate
  cases hentries : createEntries root scratch rounds vol parent path flags with
  | none =>
      rw [hentries] at hcreate
      cases hcreate
  | some result => rfl

end Iff

/-- A create that returns leaves the table and the directories alone exactly under the
condition on the state before it.  On a volume that is not in order the condition on the
directory as it is loaded is enough, and it holds where the call gives up cleanly before
it stores anything. -/
theorem create_failure_iff (root : Root) (scratch : Scratch) (rounds clusters : ℕ)
    (bpb : Bpb) (vol : Volume) (parent : VFile) (path : CString) (flags : ℕ) (made : Created)
    (hconsistent : Consistent bpb clusters vol)
    (hcreate : fat32Create root scratch rounds vol parent path flags = some made) :
    (InOrder bpb clusters root scratch vol parent path →
        (LeftAlone bpb clusters vol made.vol ↔
          CleanBefore bpb clusters root scratch vol parent path)) ∧
      (vol.Settled bpb → CreateClean root scratch rounds vol parent path →
        LeftAlone bpb clusters vol made.vol) ∧
      (∀ file', createEntries root scratch rounds vol parent path flags =
          some (made.vol, file', none) → LeftAlone bpb clusters vol made.vol →
        CreateClean root scratch rounds vol parent path) := by
  have henough : vol.Settled bpb → CreateClean root scratch rounds vol parent path →
      LeftAlone bpb clusters vol made.vol := by
    intro hsettled hclean
    rcases fat32Create_cases hcreate with ⟨file', hentries⟩ | ⟨vol', file', target, hentries, -⟩
    · exact (hclean.alone hconsistent hsettled hentries).2
    · cases (hclean.alone hconsistent hsettled hentries).1
  refine ⟨?_, henough, ?_⟩
  · intro horder
    rw [← horder.clean_iff hconsistent (createEntries_isSome hcreate)]
    refine ⟨?_, henough horder.window.settled⟩
    intro halone
    rcases fat32Create_cases hcreate with ⟨file', hentries⟩ | ⟨vol', file', target, hentries, hlast⟩
    · exact halone.createClean hconsistent hentries
    · exact absurd halone (horder.stored hconsistent hentries hlast)
  · intro file' hentries halone
    exact halone.createClean hconsistent hentries

/-! ## Two refusals, and a full volume -/

theorem smallRoot_chain : IsChain (fatEntry smallVolume) (6 + 2) 2 [2] :=
  .single (by decide) (by decide +kernel)

theorem smallVolume_inOrder (scratch : Scratch) :
    InOrder smallVolume.mount.bpb 6 ⟨2, fun _ => 0⟩ scratch smallVolume smallRoot [0x42] := by
  refine ⟨fun hcached => absurd hcached.1 (by decide), ?_, ?_⟩
  · intro target htarget
    rw [show Fat32.target [0x42] = some targetB by rfl] at htarget
    obtain rfl := Option.some.inj htarget
    decide
  · intro target opened directory hreaches
    obtain ⟨-, -, rfl⟩ := smallRoot_reaches hreaches
    refine .root ⟨rfl, rfl⟩ (by decide) (by decide) (by decide +kernel) smallRoot_chain ?_
    intro last hlast
    obtain rfl := Option.some.inj hlast
    decide +kernel

/-- Without memory for the directory. -/
def noBuffer : Scratch := zeroScratch { Grants.all with buffer := false }

/-- Without memory for the new file that is opened at the end. -/
def noFile : Scratch := zeroScratch { Grants.all with file := fun _ => false }

/-- The first refusal leaves everything alone, and the second one does not. -/
theorem create_failure_no_buffer :
    (∃ made, fat32Create ⟨2, fun _ => 0⟩ noBuffer 4 smallVolume smallRoot [0x42] 0x20 =
        some made ∧ made.file = none ∧
      LeftAlone smallVolume.mount.bpb 6 smallVolume made.vol) ∧
    ∃ made, fat32Create ⟨2, fun _ => 0⟩ noFile 4 smallVolume smallRoot [0x42] 0x20 =
        some made ∧ made.file = none ∧
      ¬LeftAlone smallVolume.mount.bpb 6 smallVolume made.vol := by
  constructor
  · obtain ⟨made, hcreate, hnone⟩ : ∃ made, fat32Create ⟨2, fun _ => 0⟩ noBuffer 4 smallVolume
        smallRoot [0x42] 0x20 = some made ∧ made.file = none := by
      have hrun : (fat32Create ⟨2, fun _ => 0⟩ noBuffer 4 smallVolume smallRoot [0x42]
          0x20).map (fun made => made.file.isNone) = some true := by decide +kernel
      obtain ⟨made, hcreate, hnone⟩ := Option.map_eq_some_iff.mp hrun
      exact ⟨made, hcreate, Option.isNone_iff_eq_none.mp hnone⟩
    refine ⟨made, hcreate, hnone, ?_⟩
    apply ((create_failure_iff ⟨2, fun _ => 0⟩ noBuffer 4 6 smallVolume.mount.bpb smallVolume
      smallRoot [0x42] 0x20 made smallVolume_consistent hcreate).1
        (smallVolume_inOrder noBuffer)).mpr
    intro target opened directory chain hreaches hchain
    obtain ⟨-, -, rfl⟩ := smallRoot_reaches hreaches
    rw [if_neg]
    · intro hbuffer
      cases hbuffer
    · rintro rfl
      exact absurd hchain.starts (by decide)
  · obtain ⟨made, hcreate, hnone⟩ : ∃ made, fat32Create ⟨2, fun _ => 0⟩ noFile 4 smallVolume
        smallRoot [0x42] 0x20 = some made ∧ made.file = none := by
      have hrun : (fat32Create ⟨2, fun _ => 0⟩ noFile 4 smallVolume smallRoot [0x42]
          0x20).map (fun made => made.file.isNone) = some true := by decide +kernel
      obtain ⟨made, hcreate, hnone⟩ := Option.map_eq_some_iff.mp hrun
      exact ⟨made, hcreate, Option.isNone_iff_eq_none.mp hnone⟩
    refine ⟨made, hcreate, hnone, ?_⟩
    rw [(create_failure_iff ⟨2, fun _ => 0⟩ noFile 4 6 smallVolume.mount.bpb smallVolume
      smallRoot [0x42] 0x20 made smallVolume_consistent hcreate).1
        (smallVolume_inOrder noFile)]
    intro hclean
    have hroom := hclean targetB smallVolume smallRoot [2] ⟨by decide, rfl, rfl, rfl⟩
      smallRoot_chain
    rw [if_neg (by decide)] at hroom
    have hmany := (hroom rfl).2 (by unfold Crowded; decide +kernel)
    exact absurd hmany (by decide +kernel)

/-- The small volume without a free cluster; its root directory is full of files whose
names start with `A`. -/
def fullVolume : Volume :=
  { smallVolume with
    device := fun a =>
      if 512 ≤ a ∧ a < 544 then
        if a = 512 then 0xF8 else if a % 4 = 3 then 0x0F else 0xFF
      else if 1024 ≤ a ∧ a < 1536 then 0x41
      else 0 }

theorem fullVolume_consistent : Consistent fullVolume.mount.bpb 6 fullVolume := by
  refine ⟨smallVolume_consistent.geometry, smallVolume_consistent.mounted, ?_⟩
  exact FreshCache.inv ⟨rfl, rfl⟩ (by decide) rfl

/-- On the full volume the mark of the end gets into entry 0. -/
theorem create_failure_full : Consistent fullVolume.mount.bpb 6 fullVolume ∧
    ∃ made, fat32Create ⟨2, fun _ => 0⟩ (zeroScratch .all) 4 fullVolume smallRoot [0x42] 0x20 =
        some made ∧ made.file = none ∧
      ¬LeftAlone fullVolume.mount.bpb 6 fullVolume made.vol := by
  have hrun : (fat32Create ⟨2, fun _ => 0⟩ (zeroScratch .all) 4 fullVolume smallRoot [0x42]
      0x20).map (fun made => (made.file.isNone, fatEntry made.vol 0)) =
        some (true, 0x0FFFFFFF) := by decide +kernel
  have hbefore : fatEntry fullVolume 0 = 0x0FFFFFF8 := by decide +kernel
  obtain ⟨made, hcreate, heq⟩ := Option.map_eq_some_iff.mp hrun
  obtain ⟨hnone, hentry⟩ := Prod.mk.inj heq
  refine ⟨fullVolume_consistent, made, hcreate, Option.isNone_iff_eq_none.mp hnone, ?_⟩
  intro halone
  have hkept := halone.entries 0 (by decide)
  rw [hentry, hbefore] at hkept
  exact absurd hkept (by decide)

end KimisOS.Fat32
