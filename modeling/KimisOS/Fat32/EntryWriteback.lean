import KimisOS.Fat32.Addressing
import KimisOS.Fat32.Dirent
import KimisOS.Fat32.Lookups
import KimisOS.Fat32.TwoHandles

/-!
# Writing one entry back

`dirent_writeback` is to change the fields of one entry and no other byte.  The
walk along the directory may bring a dirty window of the table to the device,
the page covers only the first 128 entries of a cluster, and the root directory,
which has no entry, is taken for one in the cluster 0.
-/

namespace KimisOS.Fat32

open KimisOS.ByteStore

/-! ## The fields of an entry -/

/-- The bytes of an entry that are written back: the flags, both halves of the
cluster, and the size. -/
def IsField (k : ℕ) : Prop := k = 11 ∨ (20 ≤ k ∧ k < 22) ∨ (26 ≤ k ∧ k < 32)

instance (k : ℕ) : Decidable (IsField k) := inferInstanceAs (Decidable (_ ∨ _))

/-- The value of such a byte. -/
def OpenFile.fieldByte (file : OpenFile) (k : ℕ) : UInt8 :=
  if k = 11 then UInt8.ofNat file.fileFlags
  else if k < 22 then UInt8.ofNat (file.firstCluster / 65536 / 256 ^ (k - 20))
  else if k < 28 then UInt8.ofNat (file.firstCluster % 65536 / 256 ^ (k - 26))
  else UInt8.ofNat (file.sizeBytes / 256 ^ (k - 28))

/-- The bytes of the fields of the entry at this address. -/
def fieldsAt (address : ℕ) : Set ℕ := {a | ∃ k, IsField k ∧ a = address + k}

/-- The bytes of the fields are those of the open file. -/
def HoldsFields (device : ℕ → UInt8) (address : ℕ) (file : OpenFile) : Prop :=
  ∀ k, IsField k → device (address + k) = file.fieldByte k

/-- The fields of the entry are set, and nothing else changes. -/
structure OnlyFields (device device' : ℕ → UInt8) (address : ℕ) (file : OpenFile) : Prop where
  fields : HoldsFields device' address file
  others : ∀ a, a ∉ fieldsAt address → device' a = device a

section Fields

variable {page device device' device'' : ℕ → UInt8} {index address wrong right : ℕ}
  {file : OpenFile}

theorem setDirent_field {k : ℕ} (hk : IsField k) :
    setDirent page index file (32 * index + k) = file.fieldByte k := by
  rw [setDirent, OpenFile.fieldByte]
  rcases hk with rfl | ⟨hge, hlt⟩ | ⟨hge, hlt⟩
  · rw [store, if_pos (by omega), if_pos rfl]
  · obtain ⟨j, rfl⟩ := Nat.exists_eq_add_of_le hge
    rw [store_outside (by omega), store_outside (by omega), ← Nat.add_assoc,
      store_inside (by omega), if_neg (by omega), if_pos (by omega), Nat.add_sub_cancel_left]
  · rw [if_neg (by omega), if_neg (by omega)]
    by_cases hlow : k < 28
    · obtain ⟨j, rfl⟩ := Nat.exists_eq_add_of_le hge
      rw [store_outside (by omega), ← Nat.add_assoc, store_inside (by omega), if_pos hlow,
        Nat.add_sub_cancel_left]
    · obtain ⟨j, rfl⟩ := Nat.exists_eq_add_of_le (Nat.not_lt.mp hlow)
      rw [store_outside (by omega), store_outside (by omega), store_outside (by omega),
        writeU32, ← Nat.add_assoc, store_inside (by omega), if_neg hlow,
        Nat.add_sub_cancel_left]

theorem setDirent_kept {k : ℕ} (hk : ∀ j, IsField j → k ≠ 32 * index + j) :
    setDirent page index file k = page k := by
  have hbyte : ∀ j, 11 ≤ j → j < 12 ∨ (20 ≤ j ∧ j < 22) ∨ (26 ≤ j ∧ j < 32) →
      k ≠ 32 * index + j := by
    intro j hge hj
    apply hk
    rcases hj with hflags | hhigh | hlow
    · exact .inl (by omega)
    · exact .inr (.inl hhigh)
    · exact .inr (.inr hlow)
  have hflags := hbyte 11 (by omega) (by omega)
  have hhigh := hbyte 20 (by omega) (by omega)
  have hhigh' := hbyte 21 (by omega) (by omega)
  have hrest : ¬(32 * index + 26 ≤ k ∧ k < 32 * index + 32) := by
    rintro ⟨hge, hlt⟩
    obtain ⟨j, rfl⟩ := Nat.exists_eq_add_of_le hge
    exact hbyte (26 + j) (by omega) (by omega) (by omega)
  rw [setDirent, store_outside (by omega), store_outside (by omega),
    store_outside (by omega), writeU32, store_outside (by omega)]

/-- Reading a page, setting the entry in it and writing the page back sets the
fields of that entry. -/
theorem onlyFields_page (device : ℕ → UInt8) (file : OpenFile) (hindex : index < 128) :
    OnlyFields device
      (store device address (setDirent (load device address) index file) 4096)
      (address + 32 * index) file := by
  refine ⟨?_, ?_⟩
  · intro k hk
    have hless : k < 32 := by
      rcases hk with rfl | hk | hk <;> omega
    rw [Nat.add_assoc, store_inside (by omega), setDirent_field hk]
  · intro a ha
    by_cases hin : address ≤ a ∧ a < address + 4096
    · obtain ⟨k, rfl⟩ := Nat.exists_eq_add_of_le hin.1
      rw [store_inside (by omega), setDirent_kept, load]
      intro j hj heq
      exact ha ⟨j, hj, by omega⟩
    · exact store_outside (by omega)

/-- What a change of the fields at `wrong`, from a device that has become `device'`,
may do without being seen: the two devices differ in the fields of `right` at most,
and if the places differ, both hold the fields before. -/
structure Unseen (device device' : ℕ → UInt8) (wrong right : ℕ) (file : OpenFile) :
    Prop where
  same : ∀ a, a ∉ fieldsAt wrong → a ∉ fieldsAt right → device' a = device a
  moved : wrong ≠ right →
    HoldsFields device wrong file ∧ HoldsFields device' right file

/-- The fields at `right` are set, and nothing else changes, exactly if the change at
`wrong` is unseen. -/
theorem onlyFields_iff (hset : OnlyFields device' device'' wrong file)
    (hplaces : wrong = right ∨ Disjoint (fieldsAt wrong) (fieldsAt right)) :
    OnlyFields device device'' right file ↔ Unseen device device' wrong right file := by
  constructor
  · intro honly
    refine ⟨?_, ?_⟩
    · intro a hwrong hright
      rw [← hset.others a hwrong, honly.others a hright]
    · intro hne
      have hapart := Set.disjoint_left.mp (hplaces.resolve_left hne)
      refine ⟨?_, ?_⟩
      · intro k hk
        rw [← honly.others _ (hapart ⟨k, hk, rfl⟩), hset.fields k hk]
      · intro k hk
        rw [← hset.others _ fun hin => hapart hin ⟨k, hk, rfl⟩, honly.fields k hk]
  · intro hunseen
    by_cases hsame : wrong = right
    · subst hsame
      refine ⟨hset.fields, ?_⟩
      intro a ha
      rw [hset.others a ha, hunseen.same a ha ha]
    · obtain ⟨hwrong, hright⟩ := hunseen.moved hsame
      have hapart := Set.disjoint_left.mp (hplaces.resolve_left hsame)
      refine ⟨?_, ?_⟩
      · intro k hk
        rw [hset.others _ fun hin => hapart hin ⟨k, hk, rfl⟩, hright k hk]
      · intro a ha
        by_cases hin : a ∈ fieldsAt wrong
        · obtain ⟨k, hk, rfl⟩ := hin
          rw [hset.fields k hk, hwrong k hk]
        · rw [hset.others a hin, hunseen.same a hin ha]

end Fields

/-! ## The walk to the entry -/

section Walk

variable {bpb : Bpb} {count head : ℕ} {vol : Volume} {directory : List ℕ}
  {file : OpenFile}

/-- The walk comes to the cluster of the entry and changes the device only by the
window that it writes back. -/
theorem direntClusterFrom_lookedUp {steps left p cluster target : ℕ} {reached vol' : Volume}
    {result : Option ℕ} (hchain : IsChain (fatEntry vol) count head directory)
    (hcount : count ≤ fat32EocMin) (hlooked : LookedUp count vol (directory.take p) reached)
    (hp : directory[p]? = some cluster) (htarget : directory[p + left]? = some target)
    (hwalk : direntClusterFrom steps left reached cluster = (vol', result)) :
    LookedUp count vol (directory.take (p + left)) vol' ∧ result = some target := by
  have hle : fat32EocMin ≤ fat32Eoc := by decide
  refine direntClusterFrom_along
    (P := fun p reached => LookedUp count vol (directory.take p) reached) ?_ hlooked hp
      htarget hwalk
  intro p cluster next reached hlooked hp hnext
  have hrange := hchain.range cluster (List.mem_of_getElem? hp)
  obtain ⟨hget, hvalue⟩ := hlooked.get hrange.2
  have htake : directory.take p ++ [cluster] = directory.take (p + 1) := by
    rw [List.take_add_one, hp]
    rfl
  rw [htake] at hget
  exact ⟨by omega, hget, hvalue.trans (hchain.links p cluster next hp hnext)⟩

/-- The address that the driver computes for a cluster is the exact one, cut down to
32 bits. -/
theorem MountOf.writebackAddress_eq {mount : Mount} (hmount : MountOf bpb mount)
    {cluster : ℕ} (htwo : 2 ≤ cluster) :
    mount.clusterOffset cluster % 2 ^ 32 = bpb.exactAddress cluster % 2 ^ 32 := by
  have hshift : cluster + 2 ^ 32 - 2 = cluster - 2 + 2 ^ 32 := Nat.sub_add_comm htwo
  rw [Mount.clusterOffset, hmount.bpb_eq, hmount.dataStart, Bpb.exactAddress_eq, hshift,
    Nat.add_mod_right, ← Nat.add_mod, Nat.add_mod ((cluster - 2) % 2 ^ 32 * _),
    Nat.mod_mul_mod, Nat.mod_mul_mod, ← Nat.add_mod]

end Walk

/-! ## The law -/

/-- The exact address of the entry of an open file. -/
def OpenFile.entryAddress (file : OpenFile) (bpb : Bpb) (directory : List ℕ) : ℕ :=
  bpb.exactAddress (directory.getD (file.direntOffset / (bpb.clusterSizeBytes / 32)) 0) +
    32 * (file.direntOffset % (bpb.clusterSizeBytes / 32))

/-- The entry of an open file is one of those in the chain of a directory. -/
structure InDirectory (bpb : Bpb) (count : ℕ) (vol : Volume) (directory : List ℕ)
    (file : OpenFile) : Prop where
  mount : MountOf bpb vol.mount
  cache : CacheInv count vol
  count_le : count ≤ fat32EocMin
  chain : IsChain (fatEntry vol) count file.direntCluster directory
  inside : file.direntOffset / (bpb.clusterSizeBytes / 32) < directory.length

/-- The root directory, as `fat32_open` returns it. -/
def OpenFile.IsRoot (file : OpenFile) : Prop := file.direntCluster = 0 ∧ file.direntOffset = 0

/-- The entry lies in the page that is read, and only its fields change. -/
structure WritesEntry (bpb : Bpb) (vol : Volume) (directory : List ℕ) (file : OpenFile) :
    Prop where
  inPage : file.direntOffset % (bpb.clusterSizeBytes / 32) < 4096 / 32
  only : OnlyFields vol.device (direntWriteback vol file).device
    (file.entryAddress bpb directory) file

/-- The entry lies in the page, the walk to it writes no window back that differs
from the device, and the address is exact, or both places hold the fields. -/
structure EntryInReach (bpb : Bpb) (vol : Volume) (directory : List ℕ) (file : OpenFile) :
    Prop where
  inPage : file.direntOffset % (bpb.clusterSizeBytes / 32) < 128
  unseen : Unseen vol.device
    (deviceAfter vol (directory.take (file.direntOffset / (bpb.clusterSizeBytes / 32))))
    (bpb.exactAddress (directory.getD (file.direntOffset / (bpb.clusterSizeBytes / 32)) 0) %
        2 ^ 32 + 32 * (file.direntOffset % (bpb.clusterSizeBytes / 32)))
    (file.entryAddress bpb directory) file

section Law

variable {bpb : Bpb} {count : ℕ} {vol : Volume} {directory : List ℕ} {file : OpenFile}

/-- What a write-back does to an entry in a page. -/
theorem InDirectory.writeback (hin : InDirectory bpb count vol directory file)
    (hindex : file.direntOffset % (bpb.clusterSizeBytes / 32) < 128) :
    OnlyFields
      (deviceAfter vol (directory.take (file.direntOffset / (bpb.clusterSizeBytes / 32))))
      (direntWriteback vol file).device
      (bpb.exactAddress (directory.getD (file.direntOffset / (bpb.clusterSizeBytes / 32)) 0) %
        2 ^ 32 + 32 * (file.direntOffset % (bpb.clusterSizeBytes / 32))) file := by
  have hsize : vol.mount.bpb.clusterSizeBytes = bpb.clusterSizeBytes := by
    rw [hin.mount.bpb_eq]
  have hstart : directory[0]? = some file.direntCluster := by
    obtain ⟨first, rest, hlist⟩ :=
      List.exists_cons_of_length_pos (Nat.zero_lt_of_lt hin.inside)
    rw [← hin.chain.starts, hlist, List.headD_cons, List.getElem?_cons_zero]
  obtain ⟨target, hplace⟩ : ∃ target, directory[file.direntOffset /
      (bpb.clusterSizeBytes / 32)]? = some target := ⟨_, List.getElem?_eq_getElem hin.inside⟩
  have hplace' := hplace
  rw [← Nat.zero_add (file.direntOffset / _)] at hplace'
  obtain ⟨reached, result, hwalk⟩ : ∃ reached result,
      direntClusterFrom (file.direntOffset / (bpb.clusterSizeBytes / 32))
        (file.direntOffset / (bpb.clusterSizeBytes / 32)) vol file.direntCluster =
          (reached, result) := ⟨_, _, rfl⟩
  obtain ⟨hlooked, rfl⟩ := direntClusterFrom_lookedUp (p := 0) hin.chain hin.count_le
    (.refl hin.cache) hstart hplace' hwalk
  rw [Nat.zero_add] at hlooked
  have hrange := hin.chain.range target (List.mem_of_getElem? hplace)
  have hmount : MountOf bpb reached.mount :=
    ⟨hlooked.geometry.bpb.trans hin.mount.bpb_eq,
      hlooked.geometry.dataStartSector.trans hin.mount.dataStart⟩
  rw [← hsize] at hwalk
  rw [direntWriteback_eq hwalk, hsize, hmount.writebackAddress_eq hrange.1,
    List.getD_eq_getElem?_getD, hplace, Option.getD_some, ← hlooked.device]
  exact onlyFields_page reached.device file hindex

/-- Two entries 4 GiB apart, or at the same place. -/
theorem entry_places (address offset : ℕ) :
    address % 2 ^ 32 + offset = address + offset ∨
      Disjoint (fieldsAt (address % 2 ^ 32 + offset)) (fieldsAt (address + offset)) := by
  have hdiv := Nat.mod_add_div address (2 ^ 32)
  by_cases hzero : address / 2 ^ 32 = 0
  · left
    rw [hzero, Nat.mul_zero] at hdiv
    rw [Nat.add_zero] at hdiv
    rw [hdiv]
  · right
    rw [Set.disjoint_left]
    rintro a ⟨k, hk, rfl⟩ ⟨j, hj, heq⟩
    have hless : k < 32 := by
      rcases hk with rfl | hk | hk <;> omega
    omega

theorem InDirectory.writes_iff (hin : InDirectory bpb count vol directory file) :
    WritesEntry bpb vol directory file ↔ EntryInReach bpb vol directory file := by
  by_cases hindex : file.direntOffset % (bpb.clusterSizeBytes / 32) < 128
  · have hiff := @onlyFields_iff vol.device _ _ _ (file.entryAddress bpb directory) file
      (hin.writeback hindex) (entry_places _ _)
    constructor
    · intro hwrites
      exact ⟨hindex, hiff.mp hwrites.only⟩
    · intro hreach
      exact ⟨hindex, hiff.mpr hreach.unseen⟩
  · exact iff_of_false (fun hwrites => hindex hwrites.inPage) fun hreach =>
      hindex hreach.inPage

end Law

/-- The place that is taken for the entry of the root directory. -/
def Mount.rootEntry (mount : Mount) : ℕ := mount.clusterOffset 0 % 2 ^ 32

/-- `dirent_writeback` changes the fields of the entry and nothing else exactly if
the entry is in reach; and for the root directory it changes nothing exactly if the
bytes that it takes for an entry hold its fields. -/
theorem direntWriteback_exact_iff (bpb : Bpb) (count : ℕ) (vol : Volume)
    (directory : List ℕ) (file : OpenFile) :
    (InDirectory bpb count vol directory file →
      (WritesEntry bpb vol directory file ↔ EntryInReach bpb vol directory file)) ∧
    (file.IsRoot →
      ((direntWriteback vol file).device = vol.device ↔
        HoldsFields vol.device vol.mount.rootEntry file)) := by
  refine ⟨InDirectory.writes_iff, ?_⟩
  rintro ⟨hcluster, hoffset⟩
  have hwalk : direntClusterFrom (file.direntOffset / (vol.mount.bpb.clusterSizeBytes / 32))
      (file.direntOffset / (vol.mount.bpb.clusterSizeBytes / 32)) vol file.direntCluster =
        (vol, some 0) := by
    rw [hcluster, hoffset, Nat.zero_div, direntClusterFrom]
  have honly := @onlyFields_page 0 vol.mount.rootEntry vol.device file (by decide)
  rw [Nat.mul_zero, Nat.add_zero] at honly
  rw [direntWriteback_eq hwalk, hoffset, Nat.zero_mod]
  change store vol.device vol.mount.rootEntry
    (setDirent (load vol.device vol.mount.rootEntry) 0 file) 4096 = vol.device ↔ _
  constructor
  · intro hsame
    have hfields := honly.fields
    rw [hsame] at hfields
    exact hfields
  · intro hholds
    funext a
    by_cases ha : a ∈ fieldsAt vol.mount.rootEntry
    · obtain ⟨k, hk, rfl⟩ := ha
      rw [honly.fields k hk, hholds k hk]
    · exact honly.others a ha

/-! ## Entries of small volumes -/

theorem direntWriteback_exact_shared :
    WritesEntry sharedVolume.mount.bpb sharedVolume [2] sharedFile :=
  ((direntWriteback_exact_iff sharedVolume.mount.bpb 8 sharedVolume [2] sharedFile).1
    ⟨⟨rfl, rfl⟩, sharedFile_open.consistent.cache, by decide,
      sharedVolume_wellFormed.chain true, by decide⟩).mpr
    ⟨by decide, fun _ _ _ => rfl, fun hne => absurd rfl hne⟩

/-- The root directory of that volume. -/
def sharedRoot : OpenFile where
  firstCluster := 2
  sizeBytes := 0
  fileFlags := 0x10
  direntCluster := 0
  direntOffset := 0

/-- A volume of four clusters of 8 KiB, the first of which is a directory. -/
def wideVolume : Volume :=
  { smallVolume with
    mount := { smallVolume.mount with bpb := ⟨512, 16, 1, 1, 66, 1⟩ } }

/-- A file with the entry 128 of the directory. -/
def wideFile : OpenFile := { sharedFile with direntOffset := 128 }

theorem wideFile_in : InDirectory wideVolume.mount.bpb 6 wideVolume [2] wideFile := by
  refine ⟨⟨rfl, rfl⟩, FreshCache.inv ⟨rfl, rfl⟩ (by decide) rfl, by decide, ?_, by decide⟩
  refine ⟨rfl, by decide, by decide, ?_, ?_⟩
  · intro p cluster next _ hnext
    cases hnext
  · intro last hlast
    rw [← Option.some.inj hlast]
    decide

/-- A write-back of the root directory changes the boot sector, and that of an entry
in the second page of a cluster sets its fields outside the buffer. -/
theorem direntWriteback_damages :
    sharedRoot.IsRoot ∧
      (direntWriteback sharedVolume sharedRoot).device ≠ sharedVolume.device ∧
      InDirectory wideVolume.mount.bpb 6 wideVolume [2] wideFile ∧
      ¬WritesEntry wideVolume.mount.bpb wideVolume [2] wideFile := by
  refine ⟨⟨rfl, rfl⟩, ?_, wideFile_in, ?_⟩
  · intro hsame
    have hbyte := congrFun hsame 26
    revert hbyte
    decide +kernel
  · intro hwrites
    exact absurd hwrites.inPage (by decide)

end KimisOS.Fat32
