import KimisOS.Fat32.Offset

/-!
# The addresses of clusters

The driver computes the offset of a cluster in four places, with products of 32
bits that are widened afterwards.  They are exact as long as the last cluster of
the volume starts below 4 GiB.
-/

namespace KimisOS.Fat32

open KimisOS.ByteStore

/-- The places of the driver in which it computes the offset of a cluster. -/
inductive Access where
  | read
  | write
  | readDirent
  | writeback
  deriving DecidableEq

/-- The offset that is passed to `fread` or `fwrite` for the first byte of a
cluster. -/
def Mount.addressFor (mount : Mount) : Access → ℕ → ℕ
  | .read, cluster => mount.clusterOffset cluster
  | .write, cluster => mount.clusterOffset cluster
  | .readDirent, cluster => mount.clusterOffsetStart cluster
  | .writeback, cluster => mount.clusterOffset cluster % 2 ^ 32

/-- The first sector of the data area, without a bound on its size. -/
def Bpb.dataSector (bpb : Bpb) : ℕ := bpb.reservedSectors + bpb.fatCount * bpb.sectorsPerFat

/-- The number of whole clusters in the data area. -/
def Bpb.dataClusters (bpb : Bpb) : ℕ :=
  (bpb.sectorCount - bpb.dataSector) / bpb.sectorsPerCluster

/-- The address of a cluster, without a bound on its size. -/
def Bpb.exactAddress (bpb : Bpb) (cluster : ℕ) : ℕ :=
  (bpb.dataSector + (cluster - 2) * bpb.sectorsPerCluster) * bpb.bytesPerSector

/-- All accesses to the clusters of a volume go to their addresses, and those to
different clusters share no byte. -/
structure ExactAddresses (bpb : Bpb) (mount : Mount) : Prop where
  exact : ∀ access cluster, 2 ≤ cluster → cluster < 2 + bpb.dataClusters →
    mount.addressFor access cluster = bpb.exactAddress cluster
  apart : ∀ access access' cluster cluster', 2 ≤ cluster → cluster < 2 + bpb.dataClusters →
    2 ≤ cluster' → cluster' < 2 + bpb.dataClusters → cluster ≠ cluster' →
    Disjoint
      (Set.Ico (mount.addressFor access cluster)
        (mount.addressFor access cluster + bpb.clusterSizeBytes))
      (Set.Ico (mount.addressFor access' cluster')
        (mount.addressFor access' cluster' + bpb.clusterSizeBytes))

/-- There is no cluster, or the last one starts below 4 GiB. -/
def AddressesFit (bpb : Bpb) : Prop :=
  bpb.dataClusters = 0 ∨ bpb.exactAddress (bpb.dataClusters + 1) < 2 ^ 32

section Bytes

variable (mem : ℕ → UInt8) (address : ℕ)

theorem readU32_lt : readU32 mem address < 2 ^ 32 := by
  have h0 := (mem address).toNat_lt
  have h1 := (mem (address + 1)).toNat_lt
  have h2 := (mem (address + 2)).toNat_lt
  have h3 := (mem (address + 3)).toNat_lt
  rw [readU32]
  omega

end Bytes

section Addresses

variable {bpb : Bpb} {mount : Mount} {cluster cluster' : ℕ}

/-- The sectors of a cluster lie on the volume. -/
theorem Bpb.clusterSectors_le (bpb : Bpb) (htwo : 2 ≤ cluster)
    (hless : cluster < 2 + bpb.dataClusters) :
    bpb.dataSector + (cluster - 2) * bpb.sectorsPerCluster + bpb.sectorsPerCluster ≤
      bpb.sectorCount := by
  have hall : bpb.dataClusters * bpb.sectorsPerCluster ≤
      bpb.sectorCount - bpb.dataSector := Nat.div_mul_le_self _ _
  have hthis : (cluster - 2 + 1) * bpb.sectorsPerCluster ≤
      bpb.dataClusters * bpb.sectorsPerCluster := Nat.mul_le_mul_right _ (by omega)
  have hsome : 0 < bpb.dataClusters := by omega
  have hdata : bpb.dataSector < bpb.sectorCount := by
    by_contra hfull
    rw [Bpb.dataClusters, Nat.sub_eq_zero_of_le (Nat.not_lt.mp hfull), Nat.zero_div] at hsome
    exact absurd hsome (Nat.lt_irrefl 0)
  rw [Nat.succ_mul] at hthis
  omega

theorem Bpb.exactAddress_eq (bpb : Bpb) (cluster : ℕ) :
    bpb.exactAddress cluster = (cluster - 2) * bpb.clusterSizeBytes +
      bpb.dataSector * bpb.bytesPerSector := by
  rw [Bpb.exactAddress, Bpb.clusterSizeBytes]
  ring

theorem Bpb.exactAddress_mono (bpb : Bpb) (hle : cluster ≤ cluster') :
    bpb.exactAddress cluster ≤ bpb.exactAddress cluster' := by
  rw [Bpb.exactAddress, Bpb.exactAddress]
  gcongr

theorem Bpb.exactAddress_add_le (bpb : Bpb) (htwo : 2 ≤ cluster) (hless : cluster < cluster') :
    bpb.exactAddress cluster + bpb.clusterSizeBytes ≤ bpb.exactAddress cluster' := by
  calc
    bpb.exactAddress cluster + bpb.clusterSizeBytes = bpb.exactAddress (cluster + 1) := by
      rw [Bpb.exactAddress_eq, Bpb.exactAddress_eq, show cluster + 1 - 2 = cluster - 2 + 1 by
        omega, Nat.succ_mul]
      omega
    _ ≤ bpb.exactAddress cluster' := bpb.exactAddress_mono hless

/-- The fields of a mount that addresses are computed from. -/
structure MountOf (bpb : Bpb) (mount : Mount) : Prop where
  bpb_eq : mount.bpb = bpb
  dataStart : mount.dataStartSector = bpb.dataSector % 2 ^ 32

/-- A product of the data start and of a cluster is exact in 32 bits exactly if
it fits; so is their sum. -/
theorem MountOf.clusterOffset_eq (hmount : MountOf bpb mount) (htwo : 2 ≤ cluster)
    (hless : cluster < 2 + bpb.dataClusters) (hsectors : bpb.sectorCount < 2 ^ 32)
    (hone : 1 ≤ bpb.sectorsPerCluster) :
    mount.clusterOffset cluster = (cluster - 2) * bpb.clusterSizeBytes % 2 ^ 32 +
        bpb.dataSector * bpb.bytesPerSector % 2 ^ 32 ∧
      mount.clusterOffsetStart cluster = bpb.exactAddress cluster % 2 ^ 32 := by
  have hinside := bpb.clusterSectors_le htwo hless
  have hnumber : cluster - 2 ≤ (cluster - 2) * bpb.sectorsPerCluster :=
    Nat.le_mul_of_pos_right _ hone
  have hshift : (cluster + 2 ^ 32 - 2) % 2 ^ 32 = cluster - 2 := by
    rw [Nat.sub_add_comm htwo, Nat.add_mod_right]
    exact Nat.mod_eq_of_lt (by omega)
  have hdata : bpb.dataSector % 2 ^ 32 = bpb.dataSector := Nat.mod_eq_of_lt (by omega)
  rw [Mount.clusterOffset, Mount.clusterOffsetStart, hshift, hmount.bpb_eq, hmount.dataStart,
    hdata, Nat.mod_eq_of_lt (show bpb.dataSector +
      (cluster - 2) * bpb.sectorsPerCluster < 2 ^ 32 by omega)]
  exact ⟨rfl, rfl⟩

/-- The four addresses of a cluster are exact exactly if it starts below 4 GiB. -/
theorem addressFor_exact_iff (hmount : MountOf bpb mount) (htwo : 2 ≤ cluster)
    (hless : cluster < 2 + bpb.dataClusters) (hsectors : bpb.sectorCount < 2 ^ 32)
    (hone : 1 ≤ bpb.sectorsPerCluster) :
    (∀ access, mount.addressFor access cluster = bpb.exactAddress cluster) ↔
      bpb.exactAddress cluster < 2 ^ 32 := by
  obtain ⟨hoffset, hstart⟩ := hmount.clusterOffset_eq htwo hless hsectors hone
  have hsum := bpb.exactAddress_eq cluster
  constructor
  · intro hall
    have hdirent := hall .readDirent
    rw [Mount.addressFor, hstart] at hdirent
    rw [← hdirent]
    exact Nat.mod_lt _ (by decide)
  · intro hfits access
    have hdata : mount.clusterOffset cluster = bpb.exactAddress cluster := by
      rw [hoffset, hsum, Nat.mod_eq_of_lt (by omega), Nat.mod_eq_of_lt (by omega)]
    cases access with
    | read => exact hdata
    | write => exact hdata
    | readDirent => rw [Mount.addressFor, hstart, Nat.mod_eq_of_lt hfits]
    | writeback => rw [Mount.addressFor, hdata, Nat.mod_eq_of_lt hfits]

theorem exactAddresses_iff (hmount : MountOf bpb mount)
    (hsectors : bpb.sectorCount < 2 ^ 32) (hone : 1 ≤ bpb.sectorsPerCluster) :
    ExactAddresses bpb mount ↔ AddressesFit bpb := by
  constructor
  · intro hexact
    by_cases hnone : bpb.dataClusters = 0
    · exact .inl hnone
    · right
      exact (addressFor_exact_iff hmount (by omega) (by omega) hsectors hone).mp
        fun access => hexact.exact access _ (by omega) (by omega)
  · intro hfit
    have hexact : ∀ access cluster, 2 ≤ cluster → cluster < 2 + bpb.dataClusters →
        mount.addressFor access cluster = bpb.exactAddress cluster := by
      intro access cluster htwo hless
      have hlast : bpb.exactAddress (bpb.dataClusters + 1) < 2 ^ 32 := by
        rcases hfit with hnone | hlast
        · omega
        · exact hlast
      have hle : bpb.exactAddress cluster ≤ bpb.exactAddress (bpb.dataClusters + 1) :=
        bpb.exactAddress_mono (by omega)
      exact (addressFor_exact_iff hmount htwo hless hsectors hone).mpr
        (lt_of_le_of_lt hle hlast) access
    refine ⟨hexact, ?_⟩
    intro access access' cluster cluster' htwo hless htwo' hless' hne
    rw [hexact access cluster htwo hless, hexact access' cluster' htwo' hless',
      Set.disjoint_left]
    rintro a ⟨hge, hlt⟩ ⟨hge', hlt'⟩
    rcases Nat.lt_or_gt_of_ne hne with hbefore | hafter
    · have := bpb.exactAddress_add_le htwo hbefore
      omega
    · have := bpb.exactAddress_add_le htwo' hafter
      omega

end Addresses

/-- The call that mounts a volume divides by the sectors of a cluster. -/
theorem sectorsPerCluster_pos {table : MountTable} {call : MountCall}
    (hmount : (fat32Mount table call).map Prod.snd = some 0) :
    1 ≤ call.bpb.sectorsPerCluster := by
  by_contra hnone
  have hzero : call.bpb.sectorsPerCluster = 0 := Nat.lt_one_iff.mp (Nat.not_le.mp hnone)
  have hfailed : (some mountFailed : Option ℕ) ≠ some 0 := by decide
  unfold fat32Mount at hmount
  cases hdev : call.devFile with
  | none =>
      simp only [hdev, Option.map_some] at hmount
      exact hfailed hmount
  | some devFile =>
      simp only [hdev, hzero, if_true] at hmount
      split at hmount
      next => cases hmount
      next =>
        split at hmount
        next => exact hfailed hmount
        next => cases hmount

/-- On every volume that `fat32_mount` accepts, the addresses of the clusters are
exact and apart exactly if they fit. -/
theorem cluster_addresses_exact_iff (table : MountTable) (call : MountCall)
    (blockSizeBytes devFile : ℕ) (hmount : (fat32Mount table call).map Prod.snd = some 0) :
    ExactAddresses call.bpb.bpb
        ((call.slot devFile).volume call.bpb.bpb blockSizeBytes call.device).mount ↔
      AddressesFit call.bpb.bpb :=
  exactAddresses_iff ⟨rfl, rfl⟩ (readU32_lt _ _) (sectorsPerCluster_pos hmount)

theorem cluster_addresses_exact_small :
    ExactAddresses (smallMount 0).bpb.bpb
      (((smallMount 0).slot 1).volume (smallMount 0).bpb.bpb 512
        (smallMount 0).device).mount :=
  (cluster_addresses_exact_iff .init (smallMount 0) 512 1 (by decide +kernel)).mpr
    (.inr (by decide +kernel))

/-- The boot sector of a volume of 8 GiB with clusters of 4 KiB. -/
def largeMount : MountCall where
  devFile := some 1
  device := fun a =>
    match a with
    | 12 => 2
    | 13 => 8
    | 14 => 32
    | 16 => 2
    | 35 => 1
    | 37 => 64
    | 44 => 2
    | 66 => 0x29
    | _ => 0
  offset := 0
  bpbBuffer := 2
  mountfile := some 3

/-- The cluster 4 GiB behind the first one of the volume is read and written in its
place. -/
theorem cluster_addresses_wrap :
    (fat32Mount .init largeMount).map Prod.snd = some 0 ∧
      1048578 < 2 + largeMount.bpb.bpb.dataClusters ∧
      ((largeMount.slot 1).volume largeMount.bpb.bpb 512 largeMount.device).mount.addressFor
          .write 1048578 =
        ((largeMount.slot 1).volume largeMount.bpb.bpb 512
          largeMount.device).mount.addressFor .write 2 ∧
      ¬ExactAddresses largeMount.bpb.bpb
        ((largeMount.slot 1).volume largeMount.bpb.bpb 512 largeMount.device).mount := by
  refine ⟨by decide +kernel, by decide +kernel, by decide +kernel, ?_⟩
  intro hexact
  have haddress := hexact.exact .write 1048578 (by decide) (by decide +kernel)
  have hwrong : ((largeMount.slot 1).volume largeMount.bpb.bpb 512
      largeMount.device).mount.addressFor .write 1048578 ≠
        largeMount.bpb.bpb.exactAddress 1048578 := by decide +kernel
  exact hwrong haddress

end KimisOS.Fat32
