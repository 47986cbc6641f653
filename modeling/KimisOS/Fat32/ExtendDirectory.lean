import KimisOS.Fat32.CreateFailure

/-!
# Extending a directory

When the entries of a new file do not fit behind those of the directory,
`fat32_create` links one more cluster to it, copies what it has loaded to a
larger buffer, and clears the new cluster there.  The place of the new cluster
is counted in bytes, but added to a pointer to directory entries of 32 bytes.
-/

namespace KimisOS.Fat32

open KimisOS.ByteStore

/-! ## The search for free entries -/

section Search

variable {first : ℕ → UInt8} {count total i rounds : ℕ} {initial : UInt8} {slot : Slot}

/-- A `char` is never 0xe5. -/
theorem toChar_ne (c : UInt8) : toChar c ≠ 0xe5 := by
  have hlt := @BitVec.toInt_lt 8 c.toBitVec
  rw [toChar]
  omega

/-- So only an entry that has never been used counts as free. -/
theorem probe_eq (htotal : 0 < total) (hi : i < count) :
    probe first count i total 0 = (decide (first i = 0), i) := by
  obtain ⟨left, rfl⟩ := Nat.exists_eq_succ_of_ne_zero (Nat.ne_of_gt htotal)
  rw [probe, if_neg (by omega), Nat.add_zero]
  by_cases hfree : first i = 0
  · rw [if_pos hfree, decide_eq_true hfree]
  · rw [if_neg hfree, if_pos (toChar_ne _), decide_eq_false hfree]

theorem searchSlot_found (htotal : 0 < total) (hslot : slot.found = false)
    (hfound : (searchSlot first count total initial rounds i slot).found = true) :
    (searchSlot first count total initial rounds i slot).freeIndex < count ∧
      first (searchSlot first count total initial rounds i slot).freeIndex = 0 := by
  induction rounds generalizing i slot with
  | zero =>
      rw [searchSlot, hslot] at hfound
      cases hfound
  | succ rounds ih =>
      rw [searchSlot] at hfound ⊢
      by_cases hi : count ≤ i
      · rw [if_pos hi, hslot] at hfound
        cases hfound
      · rw [if_neg hi, probe_eq htotal (by omega)] at hfound ⊢
        dsimp only at hfound ⊢
        by_cases hfree : first i = 0
        · rw [if_pos hfree]
          exact ⟨Nat.not_le.mp hi, hfree⟩
        · rw [if_neg hfree] at hfound ⊢
          exact ih (decide_eq_false hfree) hfound

end Search

/-- No entry that has never been used has enough entries from it on. -/
def Packed (directory : Directory) (target : Target) : Prop :=
  ∀ i < directory.entryCount, directory.buffer (32 * i) = 0 →
    directory.entryCount < i + target.totalDirents

theorem Packed.lacksRoom {scratch : Scratch} {directory : Directory} {target : Target}
    (hpacked : Packed directory target) (hname : target.name.length ≤ 255) :
    directory.LacksRoom scratch target := by
  rw [Directory.LacksRoom]
  cases hfound : (directory.slot scratch target).found with
  | false => exact .inl rfl
  | true =>
      right
      have htotal : target.totalDirents ≤ 21 := by
        rw [Target.totalDirents]
        omega
      have hcount : directory.entryCount < 2 ^ 27 := by
        rw [Directory.entryCount]
        omega
      obtain ⟨hlt, hfree⟩ : (directory.slot scratch target).freeIndex < directory.entryCount ∧
          directory.buffer (32 * (directory.slot scratch target).freeIndex) = 0 :=
        searchSlot_found (Nat.succ_pos _) rfl hfound
      have hless := hpacked _ hlt hfree
      rw [Nat.mod_eq_of_lt (by omega)]
      exact hless

/-! ## The larger buffer -/

/-- The size of the buffer for the extended directory. -/
def Directory.extendedSize (directory : Directory) : ℕ :=
  ((directory.clusterCount + 1) * directory.vol.mount.bpb.clusterSizeBytes + 4095) / 4096 *
    4096

/-- Start and length of what the call copies to that buffer and clears in it, if it
extends the directory: the old contents, the new cluster, and the entries. -/
def Directory.stores (directory : Directory) (target : Target) (freeIndex : ℕ) :
    List (ℕ × ℕ) :=
  let clusterSizeBytes := directory.vol.mount.bpb.clusterSizeBytes
  [(0, directory.clusterCount * clusterSizeBytes),
    (32 * (clusterSizeBytes * (directory.clusterCount + 1)), clusterSizeBytes),
    (32 * freeIndex, 32 * target.totalDirents)]

section Extend

variable {scratch : Scratch} {directory : Directory} {target : Target}

theorem extendDirectory_eq (hfree : (fat32GetFreeCluster directory.vol).2 ≠ 0) :
    ∃ vol', extendDirectory scratch directory = (vol', some
      { vol := vol'
        buffer := store
          (store scratch.extended 0 directory.buffer
            (directory.clusterCount * directory.vol.mount.bpb.clusterSizeBytes))
          (32 * (directory.vol.mount.bpb.clusterSizeBytes * (directory.clusterCount + 1)))
          (fun _ => 0) directory.vol.mount.bpb.clusterSizeBytes
        clusterCount := directory.clusterCount + 1
        lastCluster := directory.lastCluster }) := by
  rw [extendDirectory]
  dsimp only
  rw [if_neg hfree]
  exact ⟨_, rfl⟩

/-- The cleared bytes lie behind the buffer. -/
theorem Directory.cleared_outside (hcs : 512 ≤ directory.vol.mount.bpb.clusterSizeBytes) :
    directory.extendedSize <
      32 * (directory.vol.mount.bpb.clusterSizeBytes * (directory.clusterCount + 1)) := by
  have hone : directory.vol.mount.bpb.clusterSizeBytes ≤
      (directory.clusterCount + 1) * directory.vol.mount.bpb.clusterSizeBytes :=
    Nat.le_mul_of_pos_left _ (Nat.succ_pos _)
  rw [Directory.extendedSize, Nat.mul_comm directory.vol.mount.bpb.clusterSizeBytes]
  omega

/-- The new cluster holds what `malloc` left in the larger buffer. -/
theorem extendDirectory_stale (hcs : 512 ≤ directory.vol.mount.bpb.clusterSizeBytes)
    {vol' : Volume} {extended : Directory}
    (hextend : extendDirectory scratch directory = (vol', some extended)) {x : ℕ}
    (hold : directory.clusterCount * directory.vol.mount.bpb.clusterSizeBytes ≤ x)
    (hnew : x < (directory.clusterCount + 1) * directory.vol.mount.bpb.clusterSizeBytes) :
    extended.buffer x = scratch.extended x := by
  have houtside := directory.cleared_outside hcs
  rw [Directory.extendedSize] at houtside
  have hfree : (fat32GetFreeCluster directory.vol).2 ≠ 0 := by
    intro hfull
    rw [extendDirectory] at hextend
    dsimp only at hextend
    rw [if_pos hfull] at hextend
    cases hextend
  obtain ⟨vol₁, hmade⟩ := @extendDirectory_eq scratch directory hfree
  rw [hmade] at hextend
  rw [← Option.some.inj (Prod.mk.inj hextend).2]
  dsimp only
  rw [store_outside (by omega), store_outside (by omega)]

end Extend

/-! ## What an extension should do -/

/-- The directory on the device has the new entries from entry `place` on, its old
entries as before, and zeros behind. -/
structure GrownOnDisk (bpb : Bpb) (device device' : ℕ → UInt8) (chain chain' : List ℕ)
    (entry : ℕ → ℕ → UInt8) (total place : ℕ) : Prop where
  room : 32 * (place + total) ≤ chain'.length * bpb.clusterSizeBytes
  new : ∀ i < total, ∀ k < 32,
    device' (bpb.fileAddress chain' (32 * (place + i) + k)) = entry i k
  old : ∀ i, 32 * (i + 1) ≤ chain.length * bpb.clusterSizeBytes →
    device (bpb.fileAddress chain (32 * i)) ≠ 0 →
    device (bpb.fileAddress chain (32 * i)) ≠ 0xe5 → ∀ k < 32,
      device' (bpb.fileAddress chain' (32 * i + k)) =
        device (bpb.fileAddress chain (32 * i + k))
  zeros : ∀ x, 32 * (place + total) ≤ x → x < chain'.length * bpb.clusterSizeBytes →
    device' (bpb.fileAddress chain' x) = 0

/-- The entries that the call builds for the new file. -/
def Directory.newEntries (scratch : Scratch) (directory : Directory) (target : Target)
    (flags : ℕ) : ℕ → ℕ → UInt8 :=
  newEntry target.name
    (shortFilename scratch.stack (target.bytes scratch.truncPath) target.name
      (directory.slot scratch target).shortFilenameMatches)
    scratch.dirents flags target.totalDirents

/-- The call extends the directory `file`, loaded as `directory`, as it should: on the
device, and inside the larger buffer. -/
structure ExtendsExactly (root : Root) (scratch : Scratch) (rounds : ℕ) (bpb : Bpb)
    (clusters : ℕ) (vol : Volume) (parent : VFile) (path : CString) (flags : ℕ)
    (target : Target) (file : OpenFile) (directory : Directory) : Prop where
  onDisk : ∀ made, fat32Create root scratch rounds vol parent path flags = some made →
    ∃ chain chain' place,
      IsChain (fatEntry vol) (clusters + 2) file.firstCluster chain ∧ chain <+: chain' ∧
      IsChain (fatEntry made.vol) (clusters + 2) (chain'.headD 0) chain' ∧
      GrownOnDisk bpb vol.device made.vol.device chain chain'
        (directory.newEntries scratch target flags) target.totalDirents place
  inBuffer : ∀ vol' extended freeIndex,
    makeRoom scratch directory (directory.slot scratch target) target.totalDirents =
      (vol', some (extended, freeIndex)) →
    extended.clusterCount = directory.clusterCount + 1 →
    ∀ range ∈ directory.stores target freeIndex,
      range.1 + range.2 ≤ directory.extendedSize

theorem loadDirectory_bpb {bpb : Bpb} {clusters rounds : ℕ} {base vol vol₁ : Volume}
    {scratch : Scratch} {file : OpenFile} {directory : Directory}
    (haccessed : Accessed base vol) (hconsistent : Consistent bpb clusters base)
    (hload : loadDirectory scratch rounds vol file = some (vol₁, some directory)) :
    directory.vol.mount.bpb = bpb := by
  by_cases hempty : file.firstCluster = 0
  · obtain ⟨hfree, -⟩ := haccessed.getFree hconsistent
    rw [loadDirectory, if_pos hempty] at hload
    dsimp only at hload
    split at hload
    case isTrue => cases hload
    case isFalse hne =>
      rw [hfree] at hne hload
      have hless := (Volume.nextFree_spec hconsistent hne).1
      have hended := haccessed.ended hconsistent (show base.nextFree < clusters + 2 by omega)
      have hdirectory := (Prod.mk.inj (Option.some.inj hload)).2
      split at hdirectory
      case isTrue =>
        rw [← Option.some.inj hdirectory]
        exact hended.consistent.mounted.bpb_eq
      case isFalse => cases hdirectory
  · obtain ⟨hread, hdirectory⟩ := loadDirectory_spec haccessed hconsistent hempty hload
    rw [(hdirectory directory rfl).1, hread.geometry.bpb, hconsistent.mounted.bpb_eq]

/-- No extension is as it should be: in every directory in which the entries of a new name
do not fit, the clearing lies behind the buffer. -/
theorem extend_directory_never (root : Root) (scratch : Scratch) (rounds clusters : ℕ)
    (bpb : Bpb) (vol opened vol₁ : Volume) (parent file : VFile) (path : CString)
    (flags : ℕ) (target : Target) (directory : Directory)
    (hconsistent : Consistent bpb clusters vol)
    (hreaches : Reaches root scratch vol parent path target opened file)
    (hload : loadDirectory scratch rounds opened file.file = some (vol₁, some directory))
    (hpacked : Packed directory target) (hname : target.name.length ≤ 255)
    (hfree : (fat32GetFreeCluster directory.vol).2 ≠ 0) :
    ¬ExtendsExactly root scratch rounds bpb clusters vol parent path flags target file.file
      directory := by
  intro hexact
  have hcs : 512 ≤ directory.vol.mount.bpb.clusterSizeBytes := by
    rw [loadDirectory_bpb (Accessed.refl.openParent hreaches.opens) hconsistent hload]
    exact hconsistent.geometry.clusterSize_ge
  obtain ⟨freeIndex, hroom⟩ := makeRoom_extends (@Packed.lacksRoom scratch _ _ hpacked hname)
  obtain ⟨vol', hextend⟩ := @extendDirectory_eq scratch directory hfree
  rw [hextend] at hroom
  have hinside := hexact.inBuffer _ _ _ hroom rfl
    (32 * (directory.vol.mount.bpb.clusterSizeBytes * (directory.clusterCount + 1)),
      directory.vol.mount.bpb.clusterSizeBytes)
    (List.mem_cons_of_mem _ List.mem_cons_self)
  have houtside := directory.cleared_outside hcs
  dsimp only at hinside
  omega

def targetB : Target := ⟨[0x42], [0x42], none, [0x42]⟩

/-- A create of `"B"` in the root of the small volume comes to this root. -/
theorem smallRoot_reaches {scratch : Scratch} {target : Target} {opened : Volume}
    {file : VFile}
    (hreaches : Reaches ⟨2, fun _ => 0⟩ scratch smallVolume smallRoot [0x42] target opened
      file) : target = targetB ∧ smallVolume = opened ∧ smallRoot = file := by
  have htarget := hreaches.targetOf
  rw [show Fat32.target [0x42] = some targetB by rfl] at htarget
  obtain rfl := Option.some.inj htarget
  obtain ⟨hopened, hfile⟩ := Prod.mk.inj (Option.some.inj hreaches.opens)
  exact ⟨rfl, hopened, Option.some.inj hfile⟩

/-- The small volume with a root directory in which only the last entry is free. -/
def lastFreeVolume : Volume :=
  { smallVolume with
    device := fun a => if 1024 ≤ a ∧ a < 1504 then 0x41 else smallVolume.device a }

theorem lastFreeVolume_consistent : Consistent lastFreeVolume.mount.bpb 6 lastFreeVolume := by
  refine ⟨smallVolume_consistent.geometry, smallVolume_consistent.mounted, ?_⟩
  exact FreshCache.inv ⟨rfl, rfl⟩ (by decide) rfl

/-- Two entries do not fit into it. -/
theorem lastFreeVolume_loads : ∃ vol₁ directory,
    loadDirectory (zeroScratch .all) 4 lastFreeVolume smallRoot.file =
        some (vol₁, some directory) ∧
      Packed directory targetB ∧ (fat32GetFreeCluster directory.vol).2 ≠ 0 := by
  have hrun : ((loadDirectory (zeroScratch .all) 4 lastFreeVolume smallRoot.file).bind
      Prod.snd).map (fun directory : Directory =>
        decide ((∀ i < directory.entryCount, directory.buffer (32 * i) = 0 →
          directory.entryCount < i + targetB.totalDirents) ∧
            (fat32GetFreeCluster directory.vol).2 ≠ 0)) = some true := by
    unfold fat32GetFreeCluster
    decide +kernel
  obtain ⟨directory, hsome, hfacts⟩ := Option.map_eq_some_iff.mp hrun
  obtain ⟨⟨vol₁, loaded⟩, hload, hdirectory⟩ := Option.bind_eq_some_iff.mp hsome
  dsimp only at hdirectory
  subst hdirectory
  have hboth := of_decide_eq_true hfacts
  exact ⟨vol₁, directory, hload, hboth⟩

theorem extend_directory_never_root : ∃ vol₁ directory,
    loadDirectory (zeroScratch .all) 4 lastFreeVolume smallRoot.file =
        some (vol₁, some directory) ∧
      ¬ExtendsExactly ⟨2, fun _ => 0⟩ (zeroScratch .all) 4 lastFreeVolume.mount.bpb 6
        lastFreeVolume smallRoot [0x42] 0x20 targetB smallRoot.file directory := by
  obtain ⟨vol₁, directory, hload, hpacked, hfree⟩ := lastFreeVolume_loads
  exact ⟨vol₁, directory, hload, extend_directory_never _ _ _ _ _ _ lastFreeVolume vol₁ _
    smallRoot _ _ _ _ lastFreeVolume_consistent ⟨by decide, rfl, rfl, rfl⟩ hload hpacked
    (by decide) hfree⟩

/-- The small volume with a root directory that is full. -/
def packedVolume : Volume :=
  { smallVolume with
    device := fun a => if 1024 ≤ a ∧ a < 1536 then 0x41 else smallVolume.device a }

/-- What is loaded of the full directory. -/
theorem packedVolume_loads : ∃ vol₁ directory,
    loadDirectory (zeroScratch .all) 4 packedVolume smallRoot.file =
        some (vol₁, some directory) ∧
      directory.entryCount = 16 ∧ (∀ i < 16, directory.buffer (32 * i) = 0x41) ∧
      (fat32GetFreeCluster directory.vol).2 = 3 ∧ directory.clusterCount = 1 ∧
      directory.vol.mount.bpb.clusterSizeBytes = 512 := by
  have hrun : ((loadDirectory (zeroScratch .all) 4 packedVolume smallRoot.file).bind
      Prod.snd).map (fun directory : Directory =>
        (directory.entryCount, (List.range 16).all fun i => directory.buffer (32 * i) == 0x41,
          (fat32GetFreeCluster directory.vol).2, directory.clusterCount,
          directory.vol.mount.bpb.clusterSizeBytes)) = some (16, true, 3, 1, 512) := by
    unfold fat32GetFreeCluster
    decide +kernel
  obtain ⟨directory, hsome, hfacts⟩ := Option.map_eq_some_iff.mp hrun
  obtain ⟨⟨vol₁, loaded⟩, hload, hdirectory⟩ := Option.bind_eq_some_iff.mp hsome
  dsimp only at hdirectory
  subst hdirectory
  simp only [Prod.mk.injEq, List.all_eq_true, List.mem_range, beq_iff_eq] at hfacts
  exact ⟨vol₁, directory, hload, hfacts⟩

theorem packedVolume_crowded {directory : Directory} (hcount : directory.entryCount = 16)
    (hused : ∀ i < 16, directory.buffer (32 * i) = 0x41) : Packed directory targetB := by
  intro i hi hfree
  rw [hused i (by omega)] at hfree
  exact absurd hfree (by decide)

/-- In the full root directory the 512 bytes from 32768 on are cleared, of a buffer of
4096. -/
theorem extend_directory_outside : ∃ vol₁ directory,
    loadDirectory (zeroScratch .all) 4 packedVolume smallRoot.file =
        some (vol₁, some directory) ∧
      ¬ExtendsExactly ⟨2, fun _ => 0⟩ (zeroScratch .all) 4 packedVolume.mount.bpb 6
        packedVolume smallRoot [0x42] 0x20 targetB smallRoot.file directory := by
  obtain ⟨vol₁, directory, hload, hcount, hused, hfree, hone, hsize⟩ := packedVolume_loads
  refine ⟨vol₁, directory, hload, ?_⟩
  intro hexact
  have hlacks := @Packed.lacksRoom (zeroScratch .all) _ _
    (packedVolume_crowded hcount hused) (by decide)
  obtain ⟨freeIndex, hroom⟩ := makeRoom_extends hlacks
  obtain ⟨vol', hextend⟩ := @extendDirectory_eq (zeroScratch .all) directory
    (by rw [hfree]; decide)
  rw [hextend] at hroom
  have hinside := hexact.inBuffer _ _ _ hroom rfl (32768, 512) (by
    rw [Directory.stores, hsize, hone]
    exact List.mem_cons_of_mem _ List.mem_cons_self)
  rw [Directory.extendedSize, hsize, hone] at hinside
  exact absurd hinside (by decide)

end KimisOS.Fat32
