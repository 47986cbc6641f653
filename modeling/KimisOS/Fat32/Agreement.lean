import KimisOS.Fat32.Accessed

/-!
# Reading two volumes alike

Two volumes with the same table and the same device have the same chains, and opening
and reading files gives the same results, if neither has a window to write back.
-/

namespace KimisOS.Fat32

open KimisOS.ByteStore

/-- The cache has nothing that the device does not have, as far as it is told. -/
def Volume.Clean (vol : Volume) : Prop := vol.mount.cacheDirty = false

/-- Two volumes that show the same table, on the same device: they are one, or neither has
anything to write back. -/
structure Agree (bpb : Bpb) (clusters : ℕ) (table : ℕ → ℕ) (vol vol' : Volume) : Prop where
  first : Consistent bpb clusters vol
  second : Consistent bpb clusters vol'
  firstEntries : ∀ index < clusters + 2, fatEntry vol index = table index
  secondEntries : ∀ index < clusters + 2, fatEntry vol' index = table index
  device : vol'.device = vol.device
  settled : vol' = vol ∨ vol.Clean ∧ vol'.Clean

section Agree

variable {bpb : Bpb} {clusters : ℕ} {table : ℕ → ℕ} {vol vol' : Volume}

theorem Consistent.agree (hconsistent : Consistent bpb clusters vol)
    (hentries : ∀ index < clusters + 2, fatEntry vol index = table index) :
    Agree bpb clusters table vol vol :=
  ⟨hconsistent, hconsistent, hentries, hentries, rfl, .inl rfl⟩

/-- Looking up an entry of a clean volume leaves the device alone. -/
theorem Volume.Clean.get (hclean : vol.Clean) (index : ℕ) :
    (fat32GetNextCluster vol index).1.Clean ∧
      (fat32GetNextCluster vol index).1.device = vol.device := by
  change (cacheEntry vol index).Clean ∧ (cacheEntry vol index).device = vol.device
  rcases cacheEntry_eq vol index with ⟨-, heq⟩ | ⟨-, heq⟩
  · rw [heq]
    exact ⟨hclean, rfl⟩
  · have hclean' : vol.mount.cacheDirty = false := hclean
    rw [heq, recacheFat32Table_eq, writtenBack, if_neg (by simp [hclean'])]
    exact ⟨rfl, rfl⟩

theorem Consistent.get (hconsistent : Consistent bpb clusters vol) {index : ℕ}
    (hindex : index < clusters + 2) :
    Consistent bpb clusters (fat32GetNextCluster vol index).1 ∧
      (fat32GetNextCluster vol index).2 = fatEntry vol index ∧
      ∀ other < clusters + 2,
        fatEntry (fat32GetNextCluster vol index).1 other = fatEntry vol other := by
  obtain ⟨hcache, hvalue, hsame, hgeometry, -⟩ := hconsistent.cache.get hindex
  exact ⟨⟨hconsistent.geometry, hconsistent.mounted.congr hgeometry, hcache⟩, hvalue, hsame⟩

theorem Agree.get (hagree : Agree bpb clusters table vol vol') {index : ℕ}
    (hindex : index < clusters + 2) :
    Agree bpb clusters table (fat32GetNextCluster vol index).1
        (fat32GetNextCluster vol' index).1 ∧
      (fat32GetNextCluster vol index).2 = table index ∧
      (fat32GetNextCluster vol' index).2 = table index := by
  obtain ⟨hfirst, hvalue, hsame⟩ := hagree.first.get hindex
  obtain ⟨hsecond, hvalue', hsame'⟩ := hagree.second.get hindex
  refine ⟨⟨hfirst, hsecond, ?_, ?_, ?_, ?_⟩, ?_, ?_⟩
  · intro other hother
    rw [hsame other hother, hagree.firstEntries other hother]
  · intro other hother
    rw [hsame' other hother, hagree.secondEntries other hother]
  · rcases hagree.settled with hone | ⟨hclean, hclean'⟩
    · rw [hone]
    · rw [(hclean.get index).2, (hclean'.get index).2, hagree.device]
  · rcases hagree.settled with hone | ⟨hclean, hclean'⟩
    · rw [hone]
      exact .inl rfl
    · exact .inr ⟨(hclean.get index).1, (hclean'.get index).1⟩
  · rw [hvalue, hagree.firstEntries index hindex]
  · rw [hvalue', hagree.secondEntries index hindex]

variable {head : ℕ} {chain : List ℕ} {p current : ℕ}

/-- Looking up the entry of a cluster of a chain. -/
theorem Agree.next (hagree : Agree bpb clusters table vol vol')
    (hchain : IsChain table (clusters + 2) head chain) (hp : chain[p]? = some current) :
    ∃ value, (fat32GetNextCluster vol current).2 = value ∧
      (fat32GetNextCluster vol' current).2 = value ∧
      Agree bpb clusters table (fat32GetNextCluster vol current).1
        (fat32GetNextCluster vol' current).1 ∧
      ((value < fat32EocMin ∧ chain[p + 1]? = some value) ∨
        (fat32EocMin ≤ value ∧ p + 1 = chain.length)) := by
  have hrange := hchain.range current (List.mem_of_getElem? hp)
  obtain ⟨hnext, hvalue, hvalue'⟩ := hagree.get hrange.2
  exact ⟨table current, hvalue, hvalue', hnext,
    hchain.next hagree.first.geometry.count_le hp⟩

theorem Agree.clusterSizeBytes (hagree : Agree bpb clusters table vol vol') :
    vol.mount.bpb.clusterSizeBytes = bpb.clusterSizeBytes ∧
      vol'.mount.bpb.clusterSizeBytes = bpb.clusterSizeBytes := by
  rw [hagree.first.mounted.bpb_eq, hagree.second.mounted.bpb_eq]
  exact ⟨rfl, rfl⟩

theorem Agree.clusterOffset (hagree : Agree bpb clusters table vol vol') (cluster : ℕ) :
    vol'.mount.clusterOffset cluster = vol.mount.clusterOffset cluster ∧
      vol'.mount.clusterOffsetStart cluster = vol.mount.clusterOffsetStart cluster := by
  rw [Mount.clusterOffset, Mount.clusterOffset, Mount.clusterOffsetStart,
    Mount.clusterOffsetStart, hagree.first.mounted.bpb_eq, hagree.second.mounted.bpb_eq,
    hagree.first.mounted.dataStart, hagree.second.mounted.dataStart]
  exact ⟨rfl, rfl⟩

/-! ## Reading a file -/

/-- Two reads with the same result. -/
structure ReadsAlike (bpb : Bpb) (clusters : ℕ) (table : ℕ → ℕ) (out out' : ReadOutcome) :
    Prop where
  agree : Agree bpb clusters table out.vol out'.vol
  buffer : out'.buffer = out.buffer
  returned : out'.returned = out.returned

theorem Agree.readWalk {rounds : ℕ} (hagree : Agree bpb clusters table vol vol')
    (hchain : IsChain table (clusters + 2) head chain) (hp : chain[p]? = some current) :
    Agree bpb clusters table (Fat32.readWalk rounds vol current).1
        (Fat32.readWalk rounds vol' current).1 ∧
      (Fat32.readWalk rounds vol' current).2 = (Fat32.readWalk rounds vol current).2 ∧
      ∀ target, (Fat32.readWalk rounds vol current).2 = some target →
        chain[p + rounds]? = some target := by
  induction rounds generalizing vol vol' p current with
  | zero =>
      refine ⟨hagree, rfl, ?_⟩
      intro target htarget
      obtain rfl : current = target := Option.some.inj htarget
      exact hp
  | succ rounds ih =>
      obtain ⟨value, hvalue, hvalue', hnext, hplace⟩ := hagree.next hchain hp
      rw [Fat32.readWalk, Fat32.readWalk, hvalue, hvalue']
      rcases hplace with ⟨hlt, hp'⟩ | ⟨hend, -⟩
      · rw [if_neg (Nat.not_le.mpr hlt), if_neg (Nat.not_le.mpr hlt)]
        obtain ⟨hwalked, hsame, htarget⟩ := ih hnext hp'
        refine ⟨hwalked, hsame, ?_⟩
        intro target hfound
        rw [← htarget target hfound]
        congr 1
        omega
      · rw [if_pos hend, if_pos hend]
        refine ⟨hnext, rfl, ?_⟩
        intro _ hnone
        cases hnone

theorem Agree.readClusters {clustersToRead count start rounds remaining i : ℕ}
    {buffer : ℕ → UInt8} (hagree : Agree bpb clusters table vol vol')
    (hchain : IsChain table (clusters + 2) head chain)
    (hp : remaining ≠ 0 → chain[p]? = some current)
    (hword : clustersToRead < 2 ^ 32)
    (hcovers : remaining + i * bpb.clusterSizeBytes ≤ clustersToRead * bpb.clusterSizeBytes) :
    ReadsAlike bpb clusters table
      (Fat32.readClusters clustersToRead count start rounds vol buffer current remaining i)
      (Fat32.readClusters clustersToRead count start rounds vol' buffer current remaining i) := by
  induction rounds generalizing vol vol' buffer p current remaining i with
  | zero => exact ⟨hagree, rfl, rfl⟩
  | succ rounds ih =>
      by_cases hdone : remaining = 0
      · rw [hdone, readClusters_done, readClusters_done]
        exact ⟨hagree, rfl, rfl⟩
      · obtain ⟨hsize, hsize'⟩ := hagree.clusterSizeBytes
        have hoffset := (hagree.clusterOffset current).1
        obtain ⟨value, hvalue, hvalue', hnext, hplace⟩ := hagree.next hchain (hp hdone)
        by_cases hend : fat32EocMin ≤ value ∧ i < (clustersToRead + 2 ^ 32 - 1) % 2 ^ 32
        · rw [readClusters_last hdone hsize (by rwa [hvalue]),
            readClusters_last hdone hsize' (by rwa [hvalue']), hoffset, hagree.device]
          exact ⟨hnext, rfl, rfl⟩
        · rw [readClusters_next hdone hsize (by rwa [hvalue]),
            readClusters_next hdone hsize' (by rwa [hvalue']), hoffset, hagree.device, hvalue,
            hvalue']
          refine @ih _ _ (p + 1) _ _ _ _ hnext ?_ ?_
          · intro hmore
            rcases hplace with ⟨-, hp'⟩ | ⟨hmark, -⟩
            · exact hp'
            · -- With bytes left there are clusters left to read, so the mark ends the loop.
              exfalso
              refine hend ⟨hmark, ?_⟩
              have hless : (i + 1) * bpb.clusterSizeBytes <
                  clustersToRead * bpb.clusterSizeBytes := by
                rw [Nat.succ_mul]
                omega
              have hlt := Nat.lt_of_mul_lt_mul_right hless
              omega
          · rw [Nat.succ_mul]
            by_cases hless : remaining ≤ bpb.clusterSizeBytes
            · rw [min_eq_left hless]
              have hone : i + 1 ≤ clustersToRead := by
                by_contra hover
                have hle : clustersToRead * bpb.clusterSizeBytes ≤ i * bpb.clusterSizeBytes :=
                  Nat.mul_le_mul_right _ (by omega)
                omega
              have hmul : (i + 1) * bpb.clusterSizeBytes ≤
                  clustersToRead * bpb.clusterSizeBytes := Nat.mul_le_mul_right _ hone
              rw [Nat.succ_mul] at hmul
              omega
            · omega

theorem Agree.readFrom {clustersToRead offset count : ℕ} {buffer : ℕ → UInt8}
    (hagree : Agree bpb clusters table vol vol')
    (hchain : IsChain table (clusters + 2) head chain) (hp : chain[p]? = some current)
    (hword : clustersToRead < 2 ^ 32) (hcovers : count ≤ clustersToRead * bpb.clusterSizeBytes) :
    ReadsAlike bpb clusters table
      (Fat32.readFrom vol buffer clustersToRead offset count current)
      (Fat32.readFrom vol' buffer clustersToRead offset count current) := by
  obtain ⟨hsize, hsize'⟩ := hagree.clusterSizeBytes
  have hoffset := (hagree.clusterOffset current).1
  obtain ⟨o, ho⟩ : ∃ o, offset &&& (bpb.clusterSizeBytes - 1) = o := ⟨_, rfl⟩
  by_cases haligned : o = 0
  · rw [readFrom_aligned hsize (ho.trans haligned), readFrom_aligned hsize' (ho.trans haligned)]
    exact hagree.readClusters hchain (fun _ => hp) hword (by rwa [Nat.zero_mul, Nat.add_zero])
  by_cases hinside : bpb.clusterSizeBytes - o > count
  · rw [readFrom_inside hsize ho haligned hinside, readFrom_inside hsize' ho haligned hinside,
      hoffset, hagree.device]
    exact ⟨hagree, rfl, rfl⟩
  obtain ⟨value, hvalue, hvalue', hnext, hplace⟩ := hagree.next hchain hp
  by_cases hend : fat32EocMin ≤ value
  · rw [readFrom_atEnd hsize ho haligned hinside (by rwa [hvalue]),
      readFrom_atEnd hsize' ho haligned hinside (by rwa [hvalue']), hoffset, hagree.device]
    exact ⟨hnext, rfl, rfl⟩
  · have hp' : chain[p + 1]? = some value := by
      rcases hplace with ⟨-, hp'⟩ | ⟨hmark, -⟩
      · exact hp'
      · exact absurd hmark hend
    rw [readFrom_rest hsize ho haligned hinside (by rwa [hvalue]),
      readFrom_rest hsize' ho haligned hinside (by rwa [hvalue']), hoffset, hagree.device,
      hvalue, hvalue']
    exact hnext.readClusters hchain (fun _ => hp') hword
      (by rw [Nat.zero_mul, Nat.add_zero]; omega)

/-- `fat32_read` gives the same bytes and the same number. -/
theorem Agree.fat32Read {file : OpenFile} (buffer : ℕ → UInt8) (offset count : ℕ)
    (hagree : Agree bpb clusters table vol vol')
    (hchain : IsChain table (clusters + 2) head chain)
    (hfirst : chain[0]? = some file.firstCluster)
    (hcount : count + bpb.clusterSizeBytes ≤ 2 ^ 64) :
    ReadsAlike bpb clusters table (Fat32.fat32Read vol file buffer offset count)
      (Fat32.fat32Read vol' file buffer offset count) := by
  obtain ⟨hsize, hsize'⟩ := hagree.clusterSizeBytes
  have hcs := hagree.first.geometry.clusterSize_ge
  rw [Fat32.fat32Read, Fat32.fat32Read, hsize, hsize']
  dsimp only
  cases hstart : udiv64 offset bpb.clusterSizeBytes with
  | none => exact ⟨hagree, rfl, rfl⟩
  | some start =>
      cases htoRead : udiv64 ((count + bpb.clusterSizeBytes - 1) % 2 ^ 64)
          bpb.clusterSizeBytes with
      | none => exact ⟨hagree, rfl, rfl⟩
      | some toRead =>
          obtain ⟨hwalked, hsame, htarget⟩ := @Agree.readWalk bpb clusters table vol vol' head
            chain 0 file.firstCluster start hagree hchain hfirst
          dsimp only
          rw [hsame]
          cases hreached : (Fat32.readWalk start vol file.firstCluster).2 with
          | none => exact ⟨hwalked, rfl, rfl⟩
          | some current =>
              have hquotient := udiv64_eq_some htoRead
              rw [Nat.mod_eq_of_lt (by omega)] at hquotient
              refine hwalked.readFrom hchain (htarget current hreached) ?_ ?_
              · rw [udiv64] at htoRead
                split at htoRead
                case isTrue hless =>
                  rw [← Option.some.inj htoRead]
                  exact hless
                case isFalse => cases htoRead
              · have hnext := Nat.lt_mul_div_succ (count + bpb.clusterSizeBytes - 1)
                  (show 0 < bpb.clusterSizeBytes by omega)
                rw [hquotient, Nat.mul_succ, Nat.mul_comm] at hnext
                omega

/-! ## Opening a file -/

theorem Agree.readDirentFrom {room number : ℕ} {buffer : ℕ → UInt8}
    (hagree : Agree bpb clusters table vol vol')
    (hchain : IsChain table (clusters + 2) head chain)
    (hp : current < fat32EocMin → chain[p]? = some current) :
    (∃ read read' dirData,
        Fat32.readDirentFrom room vol buffer current number = some (read, dirData) ∧
        Fat32.readDirentFrom room vol' buffer current number = some (read', dirData) ∧
        Agree bpb clusters table read read') ∨
      (Fat32.readDirentFrom room vol buffer current number = none ∧
        Fat32.readDirentFrom room vol' buffer current number = none) := by
  induction room generalizing vol vol' buffer p current number with
  | zero =>
      unfold Fat32.readDirentFrom
      by_cases hlt : current < fat32EocMin
      · rw [if_pos hlt, if_pos hlt]
        exact .inr ⟨rfl, rfl⟩
      · rw [if_neg hlt, if_neg hlt]
        exact .inl ⟨vol, vol', buffer, rfl, rfl, hagree⟩
  | succ room ih =>
      unfold Fat32.readDirentFrom
      by_cases hlt : current < fat32EocMin
      · obtain ⟨value, hvalue, hvalue', hnext, hplace⟩ := hagree.next hchain (hp hlt)
        obtain ⟨hsize, hsize'⟩ := hagree.clusterSizeBytes
        have hp' : value < fat32EocMin → chain[p + 1]? = some value := by
          intro hless
          rcases hplace with ⟨-, hp'⟩ | ⟨hmark, -⟩
          · exact hp'
          · omega
        rw [if_pos hlt, if_pos hlt]
        dsimp only
        rw [hsize, hsize', (hagree.clusterOffset current).2, hagree.device, hvalue, hvalue']
        exact ih hnext hp'
      · rw [if_neg hlt, if_neg hlt]
        exact .inl ⟨vol, vol', buffer, rfl, rfl, hagree⟩

/-- Every directory that the walk comes to has its clusters in the table. -/
def Leads (root : Root) (clusters : ℕ) (table : ℕ → ℕ) : Volume → Walk → List CString → Prop
  | _, _, [] => True
  | vol, walk, token :: tokens =>
      (∃ chain, IsChain table (clusters + 2) (root.dirCluster walk.parent) chain ∧
        chain ≠ []) ∧
      ∀ read i dirent, lookup root vol walk.parent token = some (read, some (i, dirent)) →
        Leads root clusters table read ⟨walk.parent, dirent, i⟩ tokens

variable {root : Root}

theorem Agree.lookup {parent : Dirent} {token : CString}
    (hagree : Agree bpb clusters table vol vol')
    (hchain : IsChain table (clusters + 2) (root.dirCluster parent) chain)
    (hne : chain ≠ []) :
    (∃ read read' found, Fat32.lookup root vol parent token = some (read, found) ∧
        Fat32.lookup root vol' parent token = some (read', found) ∧
        Agree bpb clusters table read read') ∨
      (Fat32.lookup root vol parent token = none ∧
        Fat32.lookup root vol' parent token = none) := by
  obtain ⟨hsize, hsize'⟩ := hagree.clusterSizeBytes
  have hfirst := hchain.first (hchain.head_ne hne)
  have hread := @Agree.readDirentFrom bpb clusters table vol vol' _ chain 0
    (root.dirCluster parent) (sizeToAlloc parent * 4096 / bpb.clusterSizeBytes) 0 root.stale
    hagree hchain fun _ => hfirst
  rw [Fat32.lookup, Fat32.lookup, fat32ReadDirent, fat32ReadDirent, hsize, hsize']
  rcases hread with ⟨read, read', dirData, hread, hread', hnext⟩ | ⟨hread, hread'⟩
  · rw [hread, hread']
    dsimp only
    cases hsearch : fat32SearchDir token dirData with
    | none => exact .inr ⟨rfl, rfl⟩
    | some found =>
        cases found with
        | none => exact .inl ⟨read, read', none, rfl, rfl, hnext⟩
        | some i => exact .inl ⟨read, read', _, rfl, rfl, hnext⟩
  · rw [hread, hread']
    exact .inr ⟨rfl, rfl⟩

theorem Agree.walkTokens {walk : Walk} {tokens : List CString}
    (hagree : Agree bpb clusters table vol vol')
    (hleads : Leads root clusters table vol walk tokens) :
    (∃ read read' found, Fat32.walkTokens root vol walk tokens = some (read, found) ∧
        Fat32.walkTokens root vol' walk tokens = some (read', found) ∧
        Agree bpb clusters table read read') ∨
      (Fat32.walkTokens root vol walk tokens = none ∧
        Fat32.walkTokens root vol' walk tokens = none) := by
  induction tokens generalizing vol vol' walk with
  | nil => exact .inl ⟨vol, vol', some walk, rfl, rfl, hagree⟩
  | cons token tokens ih =>
      obtain ⟨⟨chain, hchain, hne⟩, hrest⟩ := hleads
      rw [Fat32.walkTokens, Fat32.walkTokens]
      rcases @Agree.lookup bpb clusters table vol vol' chain root walk.parent token hagree
        hchain hne with ⟨read, read', found, hlookup, hlookup', hnext⟩ | ⟨hlookup, hlookup'⟩
      · rw [hlookup, hlookup']
        cases found with
        | none => exact .inl ⟨read, read', none, rfl, rfl, hnext⟩
        | some entry => exact ih hnext (hrest read entry.1 entry.2 hlookup)
      · rw [hlookup, hlookup']
        exact .inr ⟨rfl, rfl⟩

/-- `fat32_open` opens the same file. -/
theorem Agree.fat32Open {path : CString} {parent : VFile} {opened : Option VFile}
    {read : Volume} (hagree : Agree bpb clusters table vol vol')
    (hleads : Leads root clusters table vol .start (pathTokens path))
    (hopen : Fat32.fat32Open root vol path parent = some (read, opened)) :
    ∃ read', Fat32.fat32Open root vol' path parent = some (read', opened) ∧
      Agree bpb clusters table read read' := by
  rw [Fat32.fat32Open, resolvePath] at hopen ⊢
  by_cases hempty : path = []
  · simp only [if_pos hempty] at hopen ⊢
    obtain ⟨rfl, rfl⟩ := Prod.mk.inj (Option.some.inj hopen)
    exact ⟨vol', rfl, hagree⟩
  · simp only [if_neg hempty] at hopen ⊢
    by_cases hlong : 4096 ≤ path.length
    · rw [if_pos hlong] at hopen
      cases hopen
    · rw [if_neg hlong] at hopen ⊢
      rcases hagree.walkTokens hleads with ⟨next, next', found, hwalk, hwalk', hnext⟩ |
        ⟨hwalk, -⟩
      · rw [hwalk] at hopen
        rw [hwalk']
        cases found with
        | none =>
            obtain ⟨rfl, rfl⟩ := Prod.mk.inj (Option.some.inj hopen)
            exact ⟨next', rfl, hnext⟩
        | some walk =>
            obtain ⟨rfl, rfl⟩ := Prod.mk.inj (Option.some.inj hopen)
            exact ⟨next', rfl, hnext⟩
      · rw [hwalk] at hopen
        cases hopen

end Agree

end KimisOS.Fat32
