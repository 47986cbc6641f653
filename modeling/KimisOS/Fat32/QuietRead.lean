import KimisOS.Fat32.Read
import KimisOS.Fat32.Resolve

/-!
# Reading a volume with nothing to write back

On such a volume every byte and every entry of the table is read from the
device, wherever the windows of the table are.  A chain of the table on the
device is followed to its end, and its clusters are read one after the other.
-/

namespace KimisOS.Fat32

open KimisOS.ByteStore

/-- A mounted volume that has only been read since. -/
structure Settled (bpb : Bpb) (clusters : ℕ) (base vol : Volume) : Prop where
  geometry : Geometry bpb clusters
  mounted : Mounted bpb base.mount
  alike : Alike base vol

/-- The sectors of the volume are counted in 32 bits without an overflow. -/
theorem Geometry.clusterSector {bpb : Bpb} {clusters : ℕ} (hgeo : Geometry bpb clusters)
    {cluster : ℕ} (hrange : 2 ≤ cluster ∧ cluster < clusters + 2) :
    bpb.reservedSectors + bpb.fatCount * bpb.sectorsPerFat +
        (cluster - 2) * bpb.sectorsPerCluster < 2 ^ 32 ∧
      (bpb.reservedSectors + bpb.fatCount * bpb.sectorsPerFat +
        (cluster - 2) * bpb.sectorsPerCluster) * bpb.bytesPerSector =
          bpb.clusterStart cluster ∧
      bpb.clusterStart cluster + bpb.clusterSizeBytes ≤ 2 ^ 32 := by
  have hbelow := hgeo.below
  have hsize := hgeo.clusterSize_ge
  have hsector := hgeo.sector
  have hlast : (cluster - 2) * bpb.clusterSizeBytes + bpb.clusterSizeBytes ≤
      clusters * bpb.clusterSizeBytes := by
    rw [← Nat.succ_mul]
    exact Nat.mul_le_mul_right _ (by omega)
  have hstart : (bpb.reservedSectors + bpb.fatCount * bpb.sectorsPerFat +
      (cluster - 2) * bpb.sectorsPerCluster) * bpb.bytesPerSector =
      bpb.clusterStart cluster := by
    rw [Bpb.clusterStart, Bpb.dataOffset, Bpb.clusterSizeBytes, Nat.add_mul]
    ring
  have hend : bpb.clusterStart cluster + bpb.clusterSizeBytes ≤ 2 ^ 32 := by
    rw [Bpb.clusterStart]
    omega
  refine ⟨?_, hstart, hend⟩
  apply lt_of_le_of_lt _ (show bpb.clusterStart cluster < 2 ^ 32 by omega)
  rw [← hstart]
  exact Nat.le_mul_of_pos_right _ (by omega)

/-- The cluster lies where its entry says, also for the other way in which the
driver computes it. -/
theorem Mounted.clusterOffsetStart_eq {bpb : Bpb} {clusters : ℕ} {mount : Mount}
    (hmounted : Mounted bpb mount) (hgeo : Geometry bpb clusters) {cluster : ℕ}
    (hrange : 2 ≤ cluster ∧ cluster < clusters + 2) :
    mount.clusterOffsetStart cluster = bpb.clusterStart cluster := by
  have hclusters := hgeo.clusters_lt
  have hsize := hgeo.clusterSize_ge
  obtain ⟨hsectors, hstart, hend⟩ := hgeo.clusterSector hrange
  have hshift : (cluster + 2 ^ 32 - 2) % 2 ^ 32 = cluster - 2 := by omega
  rw [Mount.clusterOffsetStart, hmounted.dataStart, hmounted.bpb_eq, hshift,
    Nat.mod_eq_of_lt hsectors, hstart, Nat.mod_eq_of_lt (by omega)]

section Settled

variable {bpb : Bpb} {clusters : ℕ} {base vol : Volume} {head : ℕ} {chain : List ℕ}
  {p current : ℕ}

theorem Settled.refl (hgeo : Geometry bpb clusters) (hmounted : Mounted bpb base.mount)
    (hquiet : Quiet base) : Settled bpb clusters base base :=
  ⟨hgeo, hmounted, hquiet.alike⟩

theorem Settled.mounted' (hsettled : Settled bpb clusters base vol) :
    Mounted bpb vol.mount := by
  exact hsettled.mounted.congr hsettled.alike.geometry

theorem Settled.clusterSizeBytes_eq (hsettled : Settled bpb clusters base vol) :
    vol.mount.bpb.clusterSizeBytes = bpb.clusterSizeBytes := by
  rw [hsettled.mounted'.bpb_eq]

/-- Reading the entry of a cluster of a chain. -/
theorem Settled.next (hsettled : Settled bpb clusters base vol)
    (hchain : IsChain (diskEntry base) (clusters + 2) head chain)
    (hp : chain[p]? = some current) :
    Settled bpb clusters base (fat32GetNextCluster vol current).1 ∧
      (((fat32GetNextCluster vol current).2 < fat32EocMin ∧
          chain[p + 1]? = some (fat32GetNextCluster vol current).2) ∨
        (fat32EocMin ≤ (fat32GetNextCluster vol current).2 ∧ p + 1 = chain.length)) := by
  have hrange := hchain.range current (List.mem_of_getElem? hp)
  have hclusters := hsettled.geometry.clusters_lt
  obtain ⟨halike, hvalue⟩ := hsettled.alike.get (show current < 2 ^ 28 by omega)
  rw [hvalue]
  exact ⟨⟨hsettled.geometry, hsettled.mounted, halike⟩,
    hchain.next hsettled.geometry.count_le hp⟩

/-- The loop of `fat32_read_dirent` reads the rest of the chain. -/
theorem readDirentFrom_chain {room : ℕ} {buffer : ℕ → UInt8}
    (hsettled : Settled bpb clusters base vol)
    (hchain : IsChain (diskEntry base) (clusters + 2) head chain)
    (hp : chain[p]? = some current) (hroom : chain.length ≤ p + room) :
    ∃ read dirData, readDirentFrom room vol buffer current p = some (read, dirData) ∧
      Settled bpb clusters base read ∧
      Loaded bpb chain base.device buffer dirData (p * bpb.clusterSizeBytes)
        (p * bpb.clusterSizeBytes) ((chain.length - p) * bpb.clusterSizeBytes) := by
  have hgeo := hsettled.geometry
  induction room generalizing vol buffer p current with
  | zero =>
      have hlt := (List.getElem?_eq_some_iff.mp hp).1
      omega
  | succ room ih =>
      have hlt := (List.getElem?_eq_some_iff.mp hp).1
      have hrange := hchain.range current (List.mem_of_getElem? hp)
      have hcount := hgeo.count_le
      have hindex := Nat.mod_eq_of_lt (hgeo.place_lt hchain hp)
      have hpiece := @Loaded.piece bpb clusters chain base.device buffer
        (p * bpb.clusterSizeBytes) bpb.clusterSizeBytes p current hgeo base.device
        (fun _ _ => rfl) hp 0 (by omega)
      rw [Nat.add_zero, Nat.add_zero] at hpiece
      obtain ⟨hread, hnext⟩ := hsettled.next hchain hp
      unfold readDirentFrom
      rw [if_pos (show current < fat32EocMin by omega)]
      dsimp only
      rw [hsettled.clusterSizeBytes_eq, hindex,
        hsettled.mounted'.clusterOffsetStart_eq hgeo hrange, hsettled.alike.device]
      rcases hnext with ⟨-, hp'⟩ | ⟨hend, hlast⟩
      · obtain ⟨read, dirData, hloop, hsettled', hrest⟩ :=
          @ih _ (p + 1) _ (store buffer (p * bpb.clusterSizeBytes)
            (load base.device (bpb.clusterStart current)) bpb.clusterSizeBytes)
            hread hp' (by omega)
        rw [Nat.succ_mul] at hrest
        have hall := hpiece.append hrest
        refine ⟨read, dirData, hloop, hsettled', ?_⟩
        rw [show chain.length - p = chain.length - (p + 1) + 1 by omega, Nat.succ_mul,
          Nat.add_comm]
        exact hall
      · refine ⟨(fat32GetNextCluster vol current).1,
          store buffer (p * bpb.clusterSizeBytes)
            (load base.device (bpb.clusterStart current)) bpb.clusterSizeBytes,
          ?_, hread, ?_⟩
        · unfold readDirentFrom
          rw [if_neg (by omega)]
        · rw [show chain.length - p = 1 by omega, Nat.one_mul]
          exact hpiece

/-- `fat32_read_dirent` reads the whole directory into a buffer with room for
it. -/
theorem fat32ReadDirent_chain {root : Root} {dirent : Dirent} {pages : ℕ}
    (hsettled : Settled bpb clusters base vol)
    (hchain : IsChain (diskEntry base) (clusters + 2) head chain)
    (hfirst : chain[0]? = some (root.dirCluster dirent))
    (hpages : chain.length * bpb.clusterSizeBytes ≤ pages * 4096) :
    ∃ read dirData, fat32ReadDirent root vol dirent pages = some (read, dirData) ∧
      Settled bpb clusters base read ∧
      ∀ x < chain.length * bpb.clusterSizeBytes,
        dirData x = base.device (bpb.fileAddress chain x) := by
  have hcs := hsettled.geometry.clusterSize_ge
  have hroom : chain.length ≤ 0 + pages * 4096 / bpb.clusterSizeBytes := by
    rw [Nat.zero_add]
    exact (Nat.le_div_iff_mul_le (by omega)).mpr hpages
  obtain ⟨read, dirData, hread, hsettled', hloaded⟩ :=
    @readDirentFrom_chain bpb clusters base vol head chain 0 _ _ root.stale hsettled hchain
      hfirst hroom
  rw [Nat.zero_mul, Nat.sub_zero] at hloaded
  refine ⟨read, dirData, ?_, hsettled', ?_⟩
  · rw [fat32ReadDirent, hsettled.clusterSizeBytes_eq]
    exact hread
  · intro x hx
    have hbyte := hloaded.bytes x hx
    rwa [Nat.zero_add] at hbyte

/-- The loop of `fat32_read` loads the rest of the bytes; there is a cluster
behind the last of them, so it returns their number. -/
theorem readClusters_settled {clustersToRead count rounds remaining : ℕ}
    {buffer : ℕ → UInt8} (hsettled : Settled bpb clusters base vol)
    (hchain : IsChain (diskEntry base) (clusters + 2) head chain)
    (hp : chain[p]? = some current)
    (hroom : p * bpb.clusterSizeBytes + remaining <
      (chain.length - 1) * bpb.clusterSizeBytes + 1)
    (hrounds : remaining ≤ rounds) :
    (readClusters clustersToRead count 0 rounds vol buffer current remaining p).returned =
        some (toInt count) ∧
      Loaded bpb chain base.device buffer
        (readClusters clustersToRead count 0 rounds vol buffer current remaining p).buffer
        (p * bpb.clusterSizeBytes) (p * bpb.clusterSizeBytes) remaining := by
  have hgeo := hsettled.geometry
  have hcs := hgeo.clusterSize_ge
  induction rounds generalizing vol buffer p current remaining with
  | zero =>
      obtain rfl : remaining = 0 := by omega
      rw [readClusters_done]
      exact ⟨rfl, fun t ht => absurd ht (Nat.not_lt_zero t), fun _ _ => rfl⟩
  | succ rounds ih =>
      by_cases hremaining : remaining = 0
      · subst hremaining
        rw [readClusters_done]
        exact ⟨rfl, fun t ht => absurd ht (Nat.not_lt_zero t), fun _ _ => rfl⟩
      · have hrange := hchain.range current (List.mem_of_getElem? hp)
        have hindex := Nat.mod_eq_of_lt (hgeo.place_lt hchain hp)
        have hoffset : vol.mount.clusterOffset current = bpb.clusterStart current :=
          hsettled.mounted'.clusterOffset_eq hgeo hrange
        have hpiece := @Loaded.piece bpb clusters chain base.device buffer
          (p * bpb.clusterSizeBytes) (min remaining bpb.clusterSizeBytes) p current
          hgeo base.device (fun _ _ => rfl) hp 0 (by omega)
        rw [Nat.add_zero, Nat.add_zero] at hpiece
        obtain ⟨hread, ⟨hlt, hp'⟩ | ⟨-, hlast⟩⟩ := hsettled.next hchain hp
        · rw [readClusters_next hremaining hsettled.clusterSizeBytes_eq (by omega), hindex,
            Nat.zero_add, hoffset, hsettled.alike.device]
          by_cases hmore : remaining ≤ bpb.clusterSizeBytes
          · rw [min_eq_left hmore] at hpiece ⊢
            rw [Nat.sub_self, readClusters_done]
            exact ⟨rfl, hpiece⟩
          · rw [min_eq_right (by omega)] at hpiece ⊢
            obtain ⟨hreturned, hrest⟩ := @ih _ (p + 1) _
              (remaining - bpb.clusterSizeBytes) (store buffer (p * bpb.clusterSizeBytes)
                (load base.device (bpb.clusterStart current)) bpb.clusterSizeBytes)
              hread hp' (by rw [Nat.succ_mul]; omega) (by omega)
            rw [Nat.succ_mul] at hrest
            have hall := hpiece.append hrest
            rw [Nat.add_sub_of_le (by omega)] at hall
            exact ⟨hreturned, hall⟩
        · rw [← hlast, Nat.add_sub_cancel] at hroom
          omega

/-- A file with a cluster to spare is read from its first byte on. -/
theorem fat32Read_settled {file : OpenFile} {count : ℕ} (buffer : ℕ → UInt8)
    (hsettled : Settled bpb clusters base vol)
    (hchain : IsChain (diskEntry base) (clusters + 2) head chain)
    (hfirst : chain[0]? = some file.firstCluster)
    (hroom : count ≤ (chain.length - 1) * bpb.clusterSizeBytes) :
    (fat32Read vol file buffer 0 count).returned = some (toInt count) ∧
      ∀ t < count, (fat32Read vol file buffer 0 count).buffer t =
        base.device (bpb.fileAddress chain t) := by
  have hgeo := hsettled.geometry
  have hcs := hgeo.clusterSize_ge
  have hbound := hgeo.chain_le hchain
  have hlt := (List.getElem?_eq_some_iff.mp hfirst).1
  have hcluster : bpb.clusterSizeBytes ≤ chain.length * bpb.clusterSizeBytes :=
    Nat.le_mul_of_pos_left _ hlt
  have hless : (chain.length - 1) * bpb.clusterSizeBytes ≤
      chain.length * bpb.clusterSizeBytes := Nat.mul_le_mul_right _ (Nat.sub_le _ _)
  have hstart := hgeo.udiv64_eq (show 0 < 2 ^ 41 by decide)
  rw [Nat.zero_div] at hstart
  have htoRead := hgeo.udiv64_eq
    (show (count + bpb.clusterSizeBytes - 1) % 2 ^ 64 < 2 ^ 41 by omega)
  have hzero : 0 &&& (bpb.clusterSizeBytes - 1) = 0 := Nat.zero_and _
  rw [fat32Read_from hsettled.clusterSizeBytes_eq hstart htoRead rfl,
    readFrom_aligned hsettled.clusterSizeBytes_eq hzero]
  obtain ⟨hreturned, hloaded⟩ := @readClusters_settled bpb clusters base vol head chain 0
    file.firstCluster ((count + bpb.clusterSizeBytes - 1) % 2 ^ 64 / bpb.clusterSizeBytes)
    count count count buffer hsettled hchain hfirst (by omega) (le_refl count)
  rw [Nat.zero_mul] at hloaded
  refine ⟨hreturned, ?_⟩
  intro t ht
  have hbyte := hloaded.bytes t ht
  rwa [Nat.zero_add] at hbyte

end Settled

end KimisOS.Fat32
