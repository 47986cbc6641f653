import KimisOS.Bootloader.ReadFile
import KimisOS.Fat32.Create
import KimisOS.Fat32.QuietRead

/-!
# Where a chain ends

The driver reads files and directories up to a mark of at least `0x0FFFFFF8`,
`fat32_create` walks on until one of at least `0x0FFFFFFF`, and the boot loader
until the one mark `0xFFFFFFFF`.  They visit the same clusters when the chain
ends with the last of these, and the boot loader finds the entries at the places
where it looks for them.
-/

namespace KimisOS.Bootloader

open KimisOS.ByteStore
open KimisOS.Fat32
open KimisOS.Walk

/-! ## The walks of the driver -/

/-- The volume, the buffer and `cluster_number` of `fat32_read_dirent`. -/
abbrev DirentRead := Volume × (ℕ → UInt8) × ℕ

/-- One round of `fat32_read_dirent`. -/
def direntRound (read : DirentRead) (cluster : ℕ) : DirentRead × ℕ :=
  let vol := read.1
  let clusterSizeBytes := vol.mount.bpb.clusterSizeBytes
  let buffer := store read.2.1 (read.2.2 * clusterSizeBytes % 2 ^ 32)
    (load vol.device (vol.mount.clusterOffsetStart cluster)) clusterSizeBytes
  let get := fat32GetNextCluster vol cluster
  ((get.1, buffer, read.2.2 + 1), get.2)

/-- The walk of `fat32_read_dirent`. -/
def direntWalk : ℕ → DirentRead → ℕ → Option (DirentRead × List ℕ) :=
  follow direntRound fun cluster => decide (cluster < fat32EocMin)

theorem readDirentFrom_eq (room : ℕ) (vol : Volume) (buffer : ℕ → UInt8)
    (cluster number : ℕ) : readDirentFrom room vol buffer cluster number =
      (direntWalk room (vol, buffer, number) cluster).map
        fun walked => (walked.1.1, walked.1.2.1) := by
  rw [direntWalk]
  induction room generalizing vol buffer cluster number with
  | zero =>
      rw [readDirentFrom, follow]
      by_cases hlt : cluster < fat32EocMin
      · simp [hlt]
      · simp [hlt]
  | succ room ih =>
      rw [readDirentFrom, follow]
      by_cases hlt : cluster < fat32EocMin
      · rw [if_pos hlt, if_pos (decide_eq_true hlt), Option.map_map]
        exact ih _ _ _ _
      · rw [if_neg hlt, if_neg (by simp [hlt])]
        rfl

/-- The loop of `fat32_read` with the clusters that it reads. -/
def readTraced (clustersToRead count start : ℕ) :
    ℕ → Volume → (ℕ → UInt8) → ℕ → ℕ → ℕ → ReadOutcome × List ℕ
  | 0, vol, buffer, _, _, _ => (⟨vol, buffer, some (toInt count)⟩, [])
  | rounds + 1, vol, buffer, currentCluster, remainingCount, i =>
      if remainingCount = 0 then (⟨vol, buffer, some (toInt count)⟩, [])
      else
        let clusterSizeBytes := vol.mount.bpb.clusterSizeBytes
        let toRead := min remainingCount clusterSizeBytes
        let buffer := store buffer (start + i * clusterSizeBytes % 2 ^ 32)
          (load vol.device (vol.mount.clusterOffset currentCluster)) toRead
        let get := fat32GetNextCluster vol currentCluster
        if fat32EocMin ≤ get.2 ∧ i < (clustersToRead + 2 ^ 32 - 1) % 2 ^ 32 then
          (⟨get.1, buffer, some (toInt ((i + 1) * clusterSizeBytes))⟩, [currentCluster])
        else
          let rest := readTraced clustersToRead count start rounds get.1 buffer get.2
            (remainingCount - toRead) (i + 1)
          (rest.1, currentCluster :: rest.2)

theorem readTraced_eq (clustersToRead count start rounds : ℕ) (vol : Volume)
    (buffer : ℕ → UInt8) (currentCluster remainingCount i : ℕ) :
    (readTraced clustersToRead count start rounds vol buffer currentCluster
        remainingCount i).1 =
      readClusters clustersToRead count start rounds vol buffer currentCluster
        remainingCount i := by
  induction rounds generalizing vol buffer currentCluster remainingCount i with
  | zero => rfl
  | succ rounds ih =>
      rw [readTraced, readClusters]
      split
      · rfl
      · dsimp only
        split
        · rfl
        · exact ih _ _ _ _ _

/-- `clusters_to_read`. -/
def clustersToRead (vol : Volume) (count : ℕ) : ℕ :=
  (count + vol.mount.bpb.clusterSizeBytes - 1) / vol.mount.bpb.clusterSizeBytes

/-- The clusters that `fat32_read` reads from the start of a file on. -/
def readVisits (vol : Volume) (buffer : ℕ → UInt8) (firstCluster count : ℕ) : List ℕ :=
  (readTraced (clustersToRead vol count) count 0 count vol buffer firstCluster count 0).2

/-- The traced read is `fat32_read`, so these are the clusters that it reads. -/
theorem fat32Read_eq (vol : Volume) (file : OpenFile) (buffer : ℕ → UInt8) {count : ℕ}
    (hcount : count + vol.mount.bpb.clusterSizeBytes < 2 ^ 32) :
    fat32Read vol file buffer 0 count =
      (readTraced (clustersToRead vol count) count 0 count vol buffer file.firstCluster
        count 0).1 := by
  have hzero : udiv64 0 vol.mount.bpb.clusterSizeBytes = some 0 := by
    rw [udiv64, Nat.zero_div, if_pos (by decide)]
  have hdividend : (count + vol.mount.bpb.clusterSizeBytes - 1) % 2 ^ 64 =
      count + vol.mount.bpb.clusterSizeBytes - 1 := Nat.mod_eq_of_lt (by omega)
  have hquotient : udiv64 (count + vol.mount.bpb.clusterSizeBytes - 1)
      vol.mount.bpb.clusterSizeBytes = some (clustersToRead vol count) := by
    rw [udiv64, if_pos]
    · rfl
    · exact lt_of_le_of_lt (Nat.div_le_self _ _) (by omega)
  rw [fat32Read]
  dsimp only
  rw [hzero, hdividend, hquotient, readTraced_eq]
  dsimp only
  rw [readWalk]
  dsimp only
  rw [readFrom, Nat.zero_and, if_neg (not_not.mpr rfl)]

section Driver

variable {bpb : Bpb} {clusters : ℕ} {base vol : Volume} {head p current : ℕ}
  {chain visited : List ℕ} {buffer : ℕ → UInt8}

theorem lt_of_goesOn {bound cluster : ℕ} (hbound : bound ≤ fat32Eoc)
    (hgoes : decide (cluster < bound) = true) : cluster < 2 ^ 28 := by
  have hlt := of_decide_eq_true hgoes
  unfold fat32Eoc at hbound
  omega

/-- The entries that are found by a walk are those on the device. -/
theorem createWalk_iff_linked (hquiet : Quiet vol) :
    (∃ rounds, (createWalk rounds vol head).map Prod.snd = some visited) ↔
      Linked (diskEntry vol) (fun cluster => decide (cluster < fat32Eoc)) head visited := by
  have hwalk := @visits_iff_linked Volume ℕ fat32GetNextCluster
    (fun cluster => decide (cluster < fat32Eoc)) vol head visited
    (fun _ reached => Alike vol reached) (diskEntry vol)
  refine hwalk ?_ hquiet.alike
  intro n reached cluster hgoes halike
  obtain ⟨hnext, hvalue⟩ := halike.get (lt_of_goesOn le_rfl hgoes)
  exact ⟨hvalue, hnext⟩

theorem direntWalk_iff_linked (hquiet : Quiet vol) :
    (∃ rounds, (direntWalk rounds (vol, buffer, 0) head).map Prod.snd = some visited) ↔
      Linked (diskEntry vol) (fun cluster => decide (cluster < fat32EocMin)) head
        visited := by
  have hwalk := @visits_iff_linked DirentRead ℕ direntRound
    (fun cluster => decide (cluster < fat32EocMin)) (vol, buffer, 0) head visited
    (fun _ read => Alike vol read.1) (diskEntry vol)
  refine hwalk ?_ hquiet.alike
  intro n read cluster hgoes halike
  obtain ⟨hnext, hvalue⟩ := halike.get (lt_of_goesOn (by decide) hgoes)
  exact ⟨hvalue, hnext⟩

/-- A walk visits a chain when it stops at the mark of its end. -/
theorem linked_chain_iff {table found : ℕ → ℕ} {count : ℕ} {goesOn : ℕ → Bool}
    (hchain : IsChain table count head chain) (hne : chain ≠ [])
    (hgoes : ∀ cluster < count, goesOn cluster = true) :
    Linked found goesOn head chain ↔
      (∀ p cluster next, chain[p]? = some cluster → chain[p + 1]? = some next →
        found cluster = next) ∧
      ∀ last, chain.getLast? = some last → goesOn (found last) = false := by
  cases chain with
  | nil => exact absurd rfl hne
  | cons first rest =>
      have hhead : first = head := hchain.starts
      rw [← hhead]
      apply Walk.linked_iff
      intro cluster hmem
      exact hgoes cluster (hchain.range cluster hmem).2

@[simp]
theorem readTraced_done (toRead count start rounds : ℕ) (vol : Volume)
    (buffer : ℕ → UInt8) (current i : ℕ) :
    (readTraced toRead count start rounds vol buffer current 0 i).2 = [] := by
  cases rounds with
  | zero => rfl
  | succ rounds => rw [readTraced, if_pos rfl]

/-- The loop of `fat32_read` reads the rest of the chain. -/
theorem readTraced_visits (hsettled : Settled bpb clusters base vol)
    (hchain : IsChain (diskEntry base) (clusters + 2) head chain)
    (hp : chain[p]? = some current) {total start rounds count : ℕ}
    (hcount : chain.length * bpb.clusterSizeBytes ≤ count)
    (hsmall : count + bpb.clusterSizeBytes < 2 ^ 32)
    (hrounds : count - p * bpb.clusterSizeBytes ≤ rounds) :
    (readTraced ((count + bpb.clusterSizeBytes - 1) / bpb.clusterSizeBytes) total start
      rounds vol buffer current (count - p * bpb.clusterSizeBytes) p).2 = chain.drop p := by
  have hcs := hsettled.geometry.clusterSize_ge
  induction rounds generalizing vol buffer p current with
  | zero =>
      have hlt := (List.getElem?_eq_some_iff.mp hp).1
      have hroom : (p + 1) * bpb.clusterSizeBytes ≤ chain.length * bpb.clusterSizeBytes :=
        Nat.mul_le_mul_right _ hlt
      rw [Nat.succ_mul] at hroom
      omega
  | succ rounds ih =>
      have hlt := (List.getElem?_eq_some_iff.mp hp).1
      have hroom : (p + 1) * bpb.clusterSizeBytes ≤ chain.length * bpb.clusterSizeBytes :=
        Nat.mul_le_mul_right _ hlt
      have hmin : min (count - p * bpb.clusterSizeBytes) bpb.clusterSizeBytes =
          bpb.clusterSizeBytes := by
        rw [Nat.succ_mul] at hroom
        omega
      have hrest : count - p * bpb.clusterSizeBytes - bpb.clusterSizeBytes =
          count - (p + 1) * bpb.clusterSizeBytes := by
        rw [Nat.succ_mul, Nat.sub_sub]
      have hdrop : chain.drop p = current :: chain.drop (p + 1) := by
        rw [List.drop_eq_getElem_cons hlt, (List.getElem?_eq_some_iff.mp hp).2]
      obtain ⟨hread, hnext⟩ := hsettled.next hchain hp
      rw [readTraced, hsettled.clusterSizeBytes_eq, if_neg (by
        rw [Nat.succ_mul] at hroom
        omega), hdrop]
      dsimp only
      rw [hmin, hrest]
      rcases hnext with ⟨hless, hp'⟩ | ⟨hend, hlast⟩
      · rw [if_neg (by omega)]
        dsimp only
        rw [ih hread hp' (by omega)]
      · rw [List.drop_eq_nil_of_le hlast.ge]
        by_cases hshort : p < ((count + bpb.clusterSizeBytes - 1) / bpb.clusterSizeBytes +
            2 ^ 32 - 1) % 2 ^ 32
        · rw [if_pos ⟨hend, hshort⟩]
        · rw [if_neg (fun hboth => hshort hboth.2)]
          have hquotient : (count + bpb.clusterSizeBytes - 1) / bpb.clusterSizeBytes <
              p + 2 := by
            have hle : (count + bpb.clusterSizeBytes - 1) / bpb.clusterSizeBytes ≤
                count + bpb.clusterSizeBytes - 1 := Nat.div_le_self _ _
            generalize (count + bpb.clusterSizeBytes - 1) / bpb.clusterSizeBytes =
              quotient at *
            omega
          rw [Nat.div_lt_iff_lt_mul (by omega), Nat.succ_mul] at hquotient
          have hzero : count - (p + 1) * bpb.clusterSizeBytes = 0 := by omega
          rw [hzero]
          dsimp only
          rw [readTraced_done]

end Driver

/-! ## The law -/

/-- All readers visit these clusters, and stop. -/
structure VisitsAlike (boot : BootBpb) (disk : ℕ → UInt8) (vol : Volume)
    (loader : Loader) (head : ℕ) (visited : List ℕ) : Prop where
  dirent : ∀ buffer, ∃ rounds,
    (direntWalk rounds (vol, buffer, 0) head).map Prod.snd = some visited
  read : ∀ buffer count, visited.length * vol.mount.bpb.clusterSizeBytes ≤ count →
    count + vol.mount.bpb.clusterSizeBytes < 2 ^ 32 →
      readVisits vol buffer head count = visited
  create : ∃ rounds, (createWalk rounds vol head).map Prod.snd = some visited
  loader : ∃ rounds, (readFile boot disk rounds loader head).map Prod.snd = some visited

/-- The last entry is a mark for `fat32_create` and found as the one of the boot
loader, which finds the links between the clusters as well. -/
structure EndsForAll (boot : BootBpb) (disk memory : ℕ → UInt8) (vol : Volume)
    (chain : List ℕ) : Prop where
  create : ∀ last, chain.getLast? = some last → fat32Eoc ≤ diskEntry vol last
  loader : ∀ last, chain.getLast? = some last →
    foundEntry boot disk memory last = fileEnd
  links : ∀ p cluster next, chain[p]? = some cluster → chain[p + 1]? = some next →
    foundEntry boot disk memory cluster = next

section Law

variable {bpb : Bpb} {clusters : ℕ} {vol : Volume} {boot : BootBpb}
  {disk memory : ℕ → UInt8} {loader : Loader} {head : ℕ} {chain visited : List ℕ}

/-- The driver reads directories to the end of their chains. -/
theorem direntWalk_chain (hgeo : Geometry bpb clusters) (hquiet : Quiet vol)
    (hchain : IsChain (diskEntry vol) (clusters + 2) head chain) (hne : chain ≠ [])
    (buffer : ℕ → UInt8) :
    (∃ rounds, (direntWalk rounds (vol, buffer, 0) head).map Prod.snd = some visited) ↔
      visited = chain := by
  have hlinked : Linked (diskEntry vol) (fun cluster => decide (cluster < fat32EocMin)) head
      chain := by
    refine (linked_chain_iff hchain hne ?_).mpr ⟨hchain.links, ?_⟩
    · intro cluster hcluster
      exact decide_eq_true (hcluster.trans_le hgeo.count_le)
    · intro last hlast
      exact decide_eq_false (Nat.not_lt.mpr (hchain.ends last hlast))
  rw [direntWalk_iff_linked hquiet]
  constructor
  · intro hvisited
    exact hvisited.unique hlinked
  · intro heq
    rw [heq]
    exact hlinked

/-- `fat32_create` does so when the mark is large enough. -/
theorem createWalk_chain_iff (hgeo : Geometry bpb clusters) (hquiet : Quiet vol)
    (hchain : IsChain (diskEntry vol) (clusters + 2) head chain) (hne : chain ≠ []) :
    (∃ rounds, (createWalk rounds vol head).map Prod.snd = some chain) ↔
      ∀ last, chain.getLast? = some last → fat32Eoc ≤ diskEntry vol last := by
  have hcount : clusters + 2 ≤ fat32Eoc := hgeo.count_le.trans (by decide)
  rw [createWalk_iff_linked hquiet, linked_chain_iff hchain hne
    fun cluster hcluster => decide_eq_true (hcluster.trans_le hcount)]
  simp only [decide_eq_false_iff_not, Nat.not_lt, and_iff_right_iff_imp]
  exact fun _ => hchain.links

theorem readFile_chain_iff {table : ℕ → ℕ} {count : ℕ} (hfits : FitsBuffers boot)
    (hready : Ready boot disk memory chain.length loader)
    (hchain : IsChain table count head chain) (hcount : count ≤ fat32EocMin)
    (hne : chain ≠ []) :
    (∃ rounds, (readFile boot disk rounds loader head).map Prod.snd = some chain) ↔
      (∀ p cluster next, chain[p]? = some cluster → chain[p + 1]? = some next →
        foundEntry boot disk memory cluster = next) ∧
      ∀ last, chain.getLast? = some last → foundEntry boot disk memory last = fileEnd := by
  have hend : fat32EocMin ≤ fileEnd := by decide
  have hgoes : ∀ cluster < count, decide (cluster ≠ fileEnd) = true := by
    intro cluster hcluster
    exact decide_eq_true ((hcluster.trans_le hcount).trans_le hend).ne
  have hhead : head ≠ fileEnd := by
    cases chain with
    | nil => exact absurd rfl hne
    | cons first rest =>
        have hstart : first = head := hchain.starts
        rw [← hstart]
        exact of_decide_eq_true (hgoes first (hchain.range first List.mem_cons_self).2)
  rw [readFile_iff_linked hfits hhead hready, linked_chain_iff hchain hne hgoes]
  simp only [decide_eq_false_iff_not, not_not]

theorem readVisits_chain (hsettled : Settled bpb clusters vol vol)
    (hchain : IsChain (diskEntry vol) (clusters + 2) head chain) (hne : chain ≠ [])
    (buffer : ℕ → UInt8) {count : ℕ}
    (hcount : chain.length * vol.mount.bpb.clusterSizeBytes ≤ count)
    (hsmall : count + vol.mount.bpb.clusterSizeBytes < 2 ^ 32) :
    readVisits vol buffer head count = chain := by
  cases chain with
  | nil => exact absurd rfl hne
  | cons first rest =>
      have hhead : first = head := hchain.starts
      have hp : (first :: rest)[0]? = some head := by
        rw [hhead]
        rfl
      rw [hsettled.clusterSizeBytes_eq] at hcount hsmall
      have hread := @readTraced_visits bpb clusters vol vol head 0 head (first :: rest)
        buffer hsettled hchain hp count 0 count count hcount hsmall (Nat.sub_le _ _)
      rw [Nat.zero_mul, Nat.sub_zero, List.drop_zero] at hread
      rw [readVisits, clustersToRead, hsettled.clusterSizeBytes_eq]
      exact hread

/-- `fat32_create`, the boot loader and the reads of the driver visit the same
clusters of a chain, and stop, exactly when its end is one for all of them. -/
theorem walks_agree_iff (hfits : FitsBuffers boot) (hgeo : Geometry bpb clusters)
    (hmounted : Mounted bpb vol.mount) (hquiet : Quiet vol)
    (hchain : IsChain (diskEntry vol) (clusters + 2) head chain) (hne : chain ≠ [])
    (hready : Ready boot disk memory chain.length loader) :
    (∃ visited, VisitsAlike boot disk vol loader head visited) ↔
      EndsForAll boot disk memory vol chain := by
  have hdirent := fun buffer =>
    (@direntWalk_chain bpb clusters vol head chain chain hgeo hquiet hchain hne buffer).mpr rfl
  have hloader := readFile_chain_iff hfits hready hchain hgeo.count_le hne
  constructor
  · intro halike
    obtain ⟨visited, halike⟩ := halike
    obtain rfl : visited = chain :=
      (direntWalk_chain hgeo hquiet hchain hne fun _ => 0).mp (halike.dirent _)
    obtain ⟨hlinks, hend⟩ := hloader.mp halike.loader
    exact ⟨(createWalk_chain_iff hgeo hquiet hchain hne).mp halike.create, hend, hlinks⟩
  · intro hends
    refine ⟨chain, ?_, ?_, ?_, hloader.mpr ⟨hends.links, hends.loader⟩⟩
    · intro buffer
      exact hdirent buffer
    · intro buffer count hcount hsmall
      exact readVisits_chain (Settled.refl hgeo hmounted hquiet) hchain hne buffer hcount
        hsmall
    · exact (createWalk_chain_iff hgeo hquiet hchain hne).mpr hends.create

/-- In the first 1024 entries of a disk without partitions the boot loader finds
what is there. -/
theorem foundEntry_eq_diskEntry (hfits : FitsBuffers boot) (hgeo : Geometry boot.bpb clusters)
    (hmounted : Mounted boot.bpb vol.mount) {cluster : ℕ} (hlow : cluster < 1024)
    (hcluster : cluster < clusters + 2) :
    foundEntry boot vol.device memory cluster = diskEntry vol cluster := by
  have hreserved := hgeo.fits
  have hcount := hgeo.sectorCount
  have hsmall : cluster % 4096 = cluster := Nat.mod_eq_of_lt (by omega)
  have hblock : cluster / 4096 = 0 := Nat.div_eq_of_lt (by omega)
  have hsector : boot.fatBlockSector 0 = boot.bpb.reservedSectors := by
    rw [BootBpb.fatBlockSector, Nat.zero_mul, Nat.zero_add]
    exact Nat.mod_eq_of_lt (by omega)
  rw [foundEntry, hsmall, hblock, if_pos hlow, hsector, diskEntry,
    hmounted.entryOffset_eq hgeo hcluster, hfits.sector, Nat.mul_comm]

/-- A chain of low clusters ends for all of them when it ends with the mark of
the boot loader. -/
theorem endsForAll_iff_of_low (hfits : FitsBuffers boot)
    (hgeo : Geometry boot.bpb clusters) (hmounted : Mounted boot.bpb vol.mount)
    (hchain : IsChain (diskEntry vol) (clusters + 2) head chain)
    (hlow : ∀ cluster ∈ chain, cluster < 1024) :
    EndsForAll boot vol.device memory vol chain ↔
      ∀ last, chain.getLast? = some last → diskEntry vol last = fileEnd := by
  have hfound : ∀ cluster ∈ chain, foundEntry boot vol.device memory cluster =
      diskEntry vol cluster := by
    intro cluster hmem
    exact foundEntry_eq_diskEntry hfits hgeo hmounted (hlow cluster hmem)
      (hchain.range cluster hmem).2
  constructor
  · intro hends last hlast
    rw [← hfound last (List.mem_of_getLast? hlast)]
    exact hends.loader last hlast
  · intro hmark
    refine ⟨?_, ?_, ?_⟩
    · intro last hlast
      rw [hmark last hlast]
      decide
    · intro last hlast
      rw [hfound last (List.mem_of_getLast? hlast)]
      exact hmark last hlast
    · intro p cluster next hp hnext
      rw [hfound cluster (List.mem_of_getElem? hp)]
      exact hchain.links p cluster next hp hnext

end Law

/-! ## Marks of other writers -/

/-- The parameter block in the boot sector of the boot loader. -/
def bootBpb : BootBpb := ⟨⟨512, 8, 32, 2, 1048576, 2048⟩, 0⟩

/-- A volume with one chain of one cluster, which ends with the mark. -/
def markedVolume (mark : ℕ) : Volume where
  mount :=
    { bpb := bootBpb.bpb
      blockSizeBytes := 512
      cacheDirty := false
      fatSearchStart := 0
      fatStartSector := 32
      dataStartSector := 4128
      fatCacheStart := 0
      fatCacheSize := 0
      fatCacheAllocated := false
      fatCache := fun _ => 0 }
  device := writeU32 (fun _ => 0) (32 * 512 + 4 * 2) mark

/-- The boot loader before it reads its first file, to 1 MiB. -/
def startLoader : Loader := ⟨fun _ => 0, 0, 0x100000⟩

def firstLoader (disk : ℕ → UInt8) : Loader := cacheFileTable bootBpb disk startLoader 0

theorem bootBpb_fits : FitsBuffers bootBpb := ⟨rfl, by decide⟩

theorem bootBpb_geometry : Geometry bootBpb.bpb 130556 where
  fatCount := by decide
  sector := by decide
  perCluster := by decide
  sectorCount := by decide
  fits := by decide
  clusterCount := by decide
  fatSize := by decide
  below := by decide
  powerOfTwo := ⟨12, rfl⟩

theorem firstLoader_ready (disk : ℕ → UInt8) :
    Ready bootBpb disk (fun _ => 0) 2 (firstLoader disk) := by
  have hlow : fileTable + 4 * 4096 ≤ startLoader.destination := by decide
  have hhigh : startLoader.destination + 2 * bootBpb.bpb.clusterSizeBytes < 2 ^ 32 := by
    decide
  exact ready_cacheFileTable bootBpb_fits (fun _ _ _ => rfl) hlow hhigh 0

theorem markedVolume_mounted (mark : ℕ) :
    Mounted bootBpb.bpb (markedVolume mark).mount := ⟨rfl, rfl, rfl, rfl⟩

theorem markedVolume_quiet (mark : ℕ) : Quiet (markedVolume mark) :=
  ⟨FreshCache.inv ⟨rfl, rfl⟩ le_rfl rfl, rfl⟩

theorem markedVolume_entry (mark : ℕ) :
    diskEntry (markedVolume mark) 2 = mark % 2 ^ 32 := by
  rw [diskEntry, (markedVolume_mounted mark).entryOffset_eq bootBpb_geometry (by omega)]
  exact readU32_writeU32_self _ _ _

theorem markedVolume_chain {mark : ℕ} (hmark : fat32EocMin ≤ mark % 2 ^ 32) :
    IsChain (diskEntry (markedVolume mark)) (130556 + 2) 2 [2] := by
  refine ⟨rfl, by decide, List.nodup_singleton 2, ?_, ?_⟩
  · intro p cluster next _ hnext
    simp at hnext
  · intro last hlast
    obtain rfl : 2 = last := Option.some.inj hlast
    rw [markedVolume_entry]
    exact hmark

/-- A volume with one chain of two clusters, which ends with the mark of the boot loader. -/
def linkedVolume : Volume :=
  { markedVolume 5 with
    device := writeU32 (markedVolume 5).device (32 * 512 + 4 * 5) fileEnd }

theorem linkedVolume_entries :
    diskEntry linkedVolume 2 = 5 ∧ diskEntry linkedVolume 5 = fileEnd := by
  have hoffset : ∀ index < 16384, entryOffset linkedVolume.mount index = 16384 + 4 * index := by
    intro index hindex
    exact (markedVolume_mounted 5).entryOffset_eq bootBpb_geometry (by omega)
  constructor
  · rw [diskEntry, hoffset 2 (by decide)]
    exact (readU32_writeU32_of_disjoint (by decide)).trans (readU32_writeU32_self _ _ _)
  · rw [diskEntry, hoffset 5 (by decide)]
    exact readU32_writeU32_self _ _ _

theorem linkedVolume_chain :
    IsChain (diskEntry linkedVolume) (130556 + 2) 2 [2, 5] := by
  obtain ⟨hfirst, hsecond⟩ := linkedVolume_entries
  refine ⟨rfl, by decide, by decide, ?_, ?_⟩
  · intro p cluster next hp hnext
    cases p with
    | zero =>
        obtain rfl := Option.some.inj hp
        obtain rfl := Option.some.inj hnext
        exact hfirst
    | succ p => simp at hnext
  · intro last hlast
    obtain rfl : 5 = last := Option.some.inj hlast
    rw [hsecond]
    decide

/-- A chain with the mark of the boot loader. -/
theorem walks_agree_bootMark : ∃ visited,
    VisitsAlike bootBpb linkedVolume.device linkedVolume (firstLoader linkedVolume.device) 2
      visited := by
  have hmounted : Mounted bootBpb.bpb linkedVolume.mount := markedVolume_mounted 5
  have hquiet : Quiet linkedVolume := ⟨FreshCache.inv ⟨rfl, rfl⟩ le_rfl rfl, rfl⟩
  refine (walks_agree_iff bootBpb_fits bootBpb_geometry hmounted hquiet linkedVolume_chain
    (List.cons_ne_nil _ _) (firstLoader_ready _)).mpr ?_
  refine (endsForAll_iff_of_low bootBpb_fits bootBpb_geometry hmounted linkedVolume_chain
    (by decide)).mpr ?_
  intro last hlast
  obtain rfl : 5 = last := Option.some.inj hlast
  exact linkedVolume_entries.2

/-- A formatter may end a chain with `0x0FFFFFF8`; `fat32_create` takes this mark
for a cluster. -/
theorem walks_differ : IsChain (diskEntry (markedVolume 0x0FFFFFF8)) (130556 + 2) 2 [2] ∧
    ¬∃ visited, VisitsAlike bootBpb (markedVolume 0x0FFFFFF8).device
      (markedVolume 0x0FFFFFF8) (firstLoader (markedVolume 0x0FFFFFF8).device) 2
      visited := by
  have hchain := @markedVolume_chain 0x0FFFFFF8 (by decide)
  refine ⟨hchain, ?_⟩
  intro halike
  obtain ⟨visited, halike⟩ := halike
  have hquiet := markedVolume_quiet 0x0FFFFFF8
  obtain rfl : visited = [2] :=
    (direntWalk_chain bootBpb_geometry hquiet hchain (List.cons_ne_nil _ _)
      fun _ => 0).mp (halike.dirent _)
  have hend := (createWalk_chain_iff bootBpb_geometry hquiet hchain
    (List.cons_ne_nil _ _)).mp halike.create 2 rfl
  rw [markedVolume_entry] at hend
  exact absurd hend (by decide)

end KimisOS.Bootloader
