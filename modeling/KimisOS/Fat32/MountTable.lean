import KimisOS.Core.Run
import KimisOS.Fat32.Names

/-!
# The table of mounts

`fat32_mount` takes the first slot without a BIOS parameter block.  The index
starts at 0 and stays there when no slot is free, so the call after the last
slot has been taken overwrites the first mount.
-/

namespace KimisOS.Fat32

open KimisOS.ByteStore
open KimisOS.Run

/-! ## The boot sector -/

/-- The fields of `fat32_bpb_t` that `fat32_mount` reads. -/
structure BootSector where
  bytesPerSector : ℕ
  sectorsPerCluster : ℕ
  reservedSectors : ℕ
  fatCount : ℕ
  sectorsSmall : ℕ
  sectorCount : ℕ
  sectorsPerFat : ℕ
  rootDirCluster : ℕ
  fsinfoSector : ℕ
  signature : ℕ
  deriving DecidableEq

/-- The packed structure in the bytes from `offset` on. -/
def readBpb (device : ℕ → UInt8) (offset : ℕ) : BootSector where
  bytesPerSector := readU16 device (offset + 11)
  sectorsPerCluster := (device (offset + 13)).toNat
  reservedSectors := readU16 device (offset + 14)
  fatCount := (device (offset + 16)).toNat
  sectorsSmall := readU16 device (offset + 19)
  sectorCount := readU32 device (offset + 32)
  sectorsPerFat := readU32 device (offset + 36)
  rootDirCluster := readU32 device (offset + 44)
  fsinfoSector := readU16 device (offset + 48)
  signature := (device (offset + 66)).toNat

def fat32CheckValid (bpb : BootSector) : Bool :=
  bpb.signature == 0x28 || bpb.signature == 0x29

/-- `fsinfo_t`, without its reserved bytes. -/
structure FsInfo where
  leadSig : ℕ
  sig2 : ℕ
  lastFreeClusterCount : ℕ
  firstFreeCluster : ℕ
  trailSig : ℕ
  deriving DecidableEq

def readFsinfo (device : ℕ → UInt8) (offset : ℕ) : FsInfo where
  leadSig := readU32 device offset
  sig2 := readU32 device (offset + 484)
  lastFreeClusterCount := readU32 device (offset + 488)
  firstFreeCluster := readU32 device (offset + 492)
  trailSig := readU32 device (offset + 508)

def fat32CheckFsinfo (info : FsInfo) : Bool :=
  info.leadSig == 0x41615252 && info.sig2 == 0x61417272 && info.trailSig == 0xAA550000

/-! ## The slots -/

/-- `fat_mount_t`.  Pointers are addresses, 0 the null pointer. -/
structure FatMount where
  bpb : ℕ
  mountSrc : ℕ
  cacheDirty : Bool
  readOnly : Bool
  fsInfoDirty : Bool
  spinlock : Bool
  lastFreeClusterCount : ℕ
  fatSearchStart : ℕ
  maxClusters : ℕ
  fatStartSector : ℕ
  dataStartSector : ℕ
  fatCacheStart : ℕ
  fatCacheSize : ℕ
  fatCache : ℕ
  deriving DecidableEq

/-- `(fat_mount_t){0}`. -/
def FatMount.zero : FatMount :=
  ⟨0, 0, false, false, false, false, 0, 0, 0, 0, 0, 0, 0, 0⟩

def maxMountCount : ℕ := 64

/-- The file of a successful mount, with the contents of its slot when the call
returned. -/
structure MountFile where
  file : ℕ
  id : ℕ
  size : ℕ
  blockSizeBytes : ℕ
  rootFirstCluster : ℕ
  rootMountIndex : ℕ
  slot : FatMount
  deriving DecidableEq

/-- `fat32_mounts` and the files of the mounts so far. -/
structure MountTable where
  slots : ℕ → FatMount
  mounted : List MountFile

/-- `init`. -/
def MountTable.init : MountTable := ⟨fun _ => .zero, []⟩

/-- The arguments of a call, with what the functions it calls return: the
contents of the device, the buffer for the boot sector and the created file. -/
structure MountCall where
  devFile : Option ℕ
  device : ℕ → UInt8
  offset : ℕ
  bpbBuffer : ℕ
  mountfile : Option ℕ

def MountCall.bpb (call : MountCall) : BootSector := readBpb call.device call.offset

/-- The call returns before it looks for a slot. -/
def MountCall.Refused (call : MountCall) : Prop :=
  call.devFile = none ∨ (fat32CheckValid call.bpb = false ∧ 0 < call.bpb.sectorsSmall)

instance (call : MountCall) : Decidable call.Refused :=
  inferInstanceAs (Decidable (_ ∨ _))

/-- The search for a slot. -/
def MountTable.freeIndex (table : MountTable) : ℕ :=
  ((List.range maxMountCount).find? fun i => (table.slots i).bpb = 0).getD 0

/-- The slot as `fat32_mount` fills it.  `fsinfo` is read at the start of the
device, not of the volume. -/
def MountCall.slot (call : MountCall) (devFile : ℕ) : FatMount :=
  let bpb := call.bpb
  let fsinfo := readFsinfo call.device (bpb.fsinfoSector * bpb.bytesPerSector)
  { FatMount.zero with
    bpb := call.bpbBuffer
    mountSrc := devFile
    maxClusters := bpb.sectorCount / bpb.sectorsPerCluster
    dataStartSector := (bpb.reservedSectors + bpb.fatCount * bpb.sectorsPerFat) % 2 ^ 32
    fatStartSector := bpb.reservedSectors
    fatSearchStart := if fat32CheckFsinfo fsinfo then fsinfo.firstFreeCluster else 0
    lastFreeClusterCount := if fat32CheckFsinfo fsinfo then fsinfo.lastFreeClusterCount else 0 }

def mountFailed : ℕ := 2 ^ 32 - 1

def MountCall.mountFile (call : MountCall) (file index : ℕ) (slot : FatMount) : MountFile where
  file := file
  id := index
  size := ((call.bpb.sectorCount + 2 ^ 32 -
    (call.bpb.reservedSectors + call.bpb.fatCount * call.bpb.sectorsPerFat) % 2 ^ 32) *
      call.bpb.bytesPerSector) % 2 ^ 32
  blockSizeBytes := call.bpb.bytesPerSector * call.bpb.sectorsPerCluster % 2 ^ 16
  rootFirstCluster := call.bpb.rootDirCluster
  rootMountIndex := index
  slot := slot

/-- `fat32_mount`.  It has no result when the buffer is a null pointer, or a
cluster has no sectors: the division traps. -/
def fat32Mount (table : MountTable) (call : MountCall) : Option (MountTable × ℕ) :=
  match call.devFile with
  | none => some (table, mountFailed)
  | some devFile =>
      if call.bpbBuffer = 0 then none
      else if !fat32CheckValid call.bpb && decide (0 < call.bpb.sectorsSmall) then
        some (table, mountFailed)
      else
        let index := table.freeIndex
        if call.bpb.sectorsPerCluster = 0 then none
        else
          match call.mountfile with
          | none =>
              some ({ table with slots := Function.update table.slots index .zero },
                mountFailed)
          | some file =>
              let mount := call.slot devFile
              some
                ({ slots := Function.update table.slots index mount
                   mounted := table.mounted ++ [call.mountFile file index mount] }, 0)

def MountTable.step (table : MountTable) (call : MountCall) : Option MountTable :=
  (fat32Mount table call).map Prod.fst

/-! ## The law and its condition -/

/-- Every mount has a slot of its own, which is as it was when it was mounted. -/
structure MountsSurvive (table : MountTable) : Prop where
  slot : ∀ mount ∈ table.mounted, table.slots mount.id = mount.slot
  distinct : (table.mounted.map MountFile.id).Nodup
  inside : ∀ mount ∈ table.mounted, mount.id < maxMountCount

def MountTable.HasFree (table : MountTable) : Prop :=
  ∃ i < maxMountCount, (table.slots i).bpb = 0

/-- With all slots taken the call fails and changes none. -/
def FailsWhenFull (table : MountTable) (call : MountCall) : Prop :=
  ¬ table.HasFree → ∀ next status, fat32Mount table call = some (next, status) →
    status = mountFailed ∧ next.slots = table.slots

/-- There is a slot for the call, or it does not need one. -/
def HasSlot (table : MountTable) (call : MountCall) : Prop :=
  table.HasFree ∨ call.Refused

/-! ## One call -/

theorem freeIndex_of_hasFree {table : MountTable} (hfree : table.HasFree) :
    table.freeIndex < maxMountCount ∧ (table.slots table.freeIndex).bpb = 0 := by
  obtain ⟨i, hi, hbpb⟩ := hfree
  cases hfind : (List.range maxMountCount).find? fun i => (table.slots i).bpb = 0 with
  | none =>
      have hall := List.find?_eq_none.mp hfind i (List.mem_range.mpr hi)
      simp [hbpb] at hall
  | some index =>
      rw [MountTable.freeIndex, hfind, Option.getD_some]
      exact ⟨List.mem_range.mp (List.mem_of_find?_eq_some hfind),
        by simpa using List.find?_some hfind⟩

/-- Without a free slot the index stays 0. -/
theorem freeIndex_of_full {table : MountTable} (hfull : ¬ table.HasFree) :
    table.freeIndex = 0 := by
  have hfind : ((List.range maxMountCount).find? fun i => (table.slots i).bpb = 0) = none := by
    rw [List.find?_eq_none]
    intro i hi hbpb
    exact hfull ⟨i, List.mem_range.mp hi, by simpa using hbpb⟩
  rw [MountTable.freeIndex, hfind, Option.getD_none]

/-- The inversion lemma: a call fails at once, takes a slot back, or mounts. -/
theorem fat32Mount_cases {table next : MountTable} {call : MountCall} {status : ℕ}
    (hmount : fat32Mount table call = some (next, status)) :
    (call.Refused ∧ next = table ∧ status = mountFailed) ∨
    (¬ call.Refused ∧ status = mountFailed ∧
      next = { table with slots := Function.update table.slots table.freeIndex .zero }) ∨
    (¬ call.Refused ∧ status = 0 ∧ ∃ devFile file, call.bpbBuffer ≠ 0 ∧
      next = { slots := Function.update table.slots table.freeIndex (call.slot devFile)
               mounted := table.mounted ++
                [call.mountFile file table.freeIndex (call.slot devFile)] }) := by
  unfold fat32Mount at hmount
  cases hdev : call.devFile with
  | none =>
      simp only [hdev, Option.some.injEq, Prod.mk.injEq] at hmount
      exact Or.inl ⟨Or.inl hdev, hmount.1.symm, hmount.2.symm⟩
  | some devFile =>
      simp only [hdev] at hmount
      split at hmount
      next => simp at hmount
      next hbuffer =>
        split at hmount
        next hinvalid =>
          rw [Bool.and_eq_true, Bool.not_eq_true', decide_eq_true_eq] at hinvalid
          simp only [Option.some.injEq, Prod.mk.injEq] at hmount
          exact Or.inl ⟨Or.inr hinvalid, hmount.1.symm, hmount.2.symm⟩
        next hvalid =>
          have hrefused : ¬ call.Refused := by
            rintro (h | h)
            · rw [hdev] at h
              simp at h
            · rw [Bool.and_eq_true, Bool.not_eq_true', decide_eq_true_eq] at hvalid
              exact hvalid h
          split at hmount
          next => simp at hmount
          next =>
            split at hmount
            next =>
              simp only [Option.some.injEq, Prod.mk.injEq] at hmount
              exact Or.inr (Or.inl ⟨hrefused, hmount.2.symm, hmount.1.symm⟩)
            next file _ =>
              simp only [Option.some.injEq, Prod.mk.injEq] at hmount
              exact Or.inr (Or.inr
                ⟨hrefused, hmount.2.symm, devFile, file, hbuffer, hmount.1.symm⟩)

theorem failsWhenFull_of_hasSlot {table : MountTable} {call : MountCall}
    (hslot : HasSlot table call) : FailsWhenFull table call := by
  intro hfull next status hmount
  have hrefused : call.Refused := hslot.resolve_left hfull
  rcases fat32Mount_cases hmount with ⟨-, rfl, rfl⟩ | ⟨hnot, -⟩ | ⟨hnot, -⟩
  · exact ⟨rfl, rfl⟩
  · exact absurd hrefused hnot
  · exact absurd hrefused hnot

/-- The mounts are exactly the taken slots. -/
structure MountsHold (table : MountTable) : Prop where
  survive : MountsSurvive table
  taken : ∀ mount ∈ table.mounted, mount.slot.bpb ≠ 0
  owner : ∀ i < maxMountCount, (table.slots i).bpb ≠ 0 → ∃ mount ∈ table.mounted, mount.id = i

theorem mountsHold_init : MountsHold MountTable.init where
  survive := ⟨by simp [MountTable.init], by simp [MountTable.init], by simp [MountTable.init]⟩
  taken := by simp [MountTable.init]
  owner := by simp [MountTable.init, FatMount.zero]

/-- No mount has the free slot. -/
theorem MountsHold.ne_freeIndex {table : MountTable} (hhold : MountsHold table)
    (hfree : (table.slots table.freeIndex).bpb = 0) {mount : MountFile}
    (hmem : mount ∈ table.mounted) : mount.id ≠ table.freeIndex := by
  intro hid
  refine hhold.taken mount hmem ?_
  rw [← hhold.survive.slot mount hmem, hid]
  exact hfree

theorem MountsHold.step {table next : MountTable} {call : MountCall}
    (hhold : MountsHold table) (hslot : HasSlot table call)
    (hstep : table.step call = some next) : MountsHold next := by
  obtain ⟨⟨next', status⟩, hmount, rfl⟩ := Option.map_eq_some_iff.mp hstep
  rcases fat32Mount_cases hmount with
    ⟨-, rfl, -⟩ | ⟨hnot, -, rfl⟩ | ⟨hnot, -, devFile, file, hbuffer, rfl⟩
  · exact hhold
  · obtain ⟨hindex, hfree⟩ := freeIndex_of_hasFree (hslot.resolve_right hnot)
    refine ⟨⟨?_, hhold.survive.distinct, hhold.survive.inside⟩, hhold.taken, ?_⟩
    · intro mount hmem
      simp only [Function.update_of_ne (hhold.ne_freeIndex hfree hmem)]
      exact hhold.survive.slot mount hmem
    · intro i hi hbpb
      by_cases hindex' : i = table.freeIndex
      · subst hindex'
        simp [FatMount.zero] at hbpb
      · simp only [Function.update_of_ne hindex'] at hbpb
        exact hhold.owner i hi hbpb
  · obtain ⟨hindex, hfree⟩ := freeIndex_of_hasFree (hslot.resolve_right hnot)
    refine ⟨⟨?_, ?_, ?_⟩, ?_, ?_⟩
    · intro mount hmem
      rcases List.mem_append.mp hmem with hold | hnew
      · simp only [Function.update_of_ne (hhold.ne_freeIndex hfree hold)]
        exact hhold.survive.slot mount hold
      · obtain rfl := List.mem_singleton.mp hnew
        simp [MountCall.mountFile]
    · rw [List.map_append, List.nodup_append]
      refine ⟨hhold.survive.distinct, by simp, ?_⟩
      intro id hid id' hid' heq
      obtain ⟨mount, hmem, rfl⟩ := List.mem_map.mp hid
      refine hhold.ne_freeIndex hfree hmem ?_
      rw [heq]
      simpa [MountCall.mountFile] using hid'
    · intro mount hmem
      rcases List.mem_append.mp hmem with hold | hnew
      · exact hhold.survive.inside mount hold
      · obtain rfl := List.mem_singleton.mp hnew
        exact hindex
    · intro mount hmem
      rcases List.mem_append.mp hmem with hold | hnew
      · exact hhold.taken mount hold
      · obtain rfl := List.mem_singleton.mp hnew
        exact hbuffer
    · intro i hi hbpb
      by_cases hindex' : i = table.freeIndex
      · exact ⟨_, List.mem_append_right _ (List.mem_singleton_self _), hindex'.symm⟩
      · simp only [Function.update_of_ne hindex'] at hbpb
        obtain ⟨mount, hmem, hid⟩ := hhold.owner i hi hbpb
        exact ⟨mount, List.mem_append_left _ hmem, hid⟩

/-- A call that needs a slot when there is none destroys the first mount. -/
theorem MountsHold.hasSlot {table next : MountTable} {call : MountCall}
    (hhold : MountsHold table) (hstep : table.step call = some next)
    (hsurvive : MountsSurvive next) : HasSlot table call := by
  by_contra hnone
  obtain ⟨hfull, hnot⟩ := not_or.mp hnone
  have hindex := freeIndex_of_full hfull
  have htaken : (table.slots 0).bpb ≠ 0 := by
    intro hzero
    exact hfull ⟨0, by decide, hzero⟩
  obtain ⟨mount, hmem, hid⟩ := hhold.owner 0 (by decide) htaken
  obtain ⟨⟨next', status⟩, hmount, rfl⟩ := Option.map_eq_some_iff.mp hstep
  rcases fat32Mount_cases hmount with
    ⟨hrefused, -⟩ | ⟨-, -, rfl⟩ | ⟨-, -, devFile, file, -, rfl⟩
  · exact hnot hrefused
  · have hslot := hsurvive.slot mount hmem
    refine hhold.taken mount hmem ?_
    rw [← hslot, hid, hindex]
    simp [FatMount.zero]
  · have hdistinct := hsurvive.distinct
    rw [List.map_append, List.nodup_append] at hdistinct
    refine hdistinct.2.2 0 (List.mem_map.mpr ⟨mount, hmem, hid⟩) 0 ?_ rfl
    simp [MountCall.mountFile, hindex]

/-! ## Runs -/

/-- Mounts survive, and full tables refuse, in every run in which no call needs
a slot that is not there, and in no other. -/
theorem mounts_survive_iff {calls : List MountCall} {final : MountTable}
    (hrun : exec MountTable.step MountTable.init calls = some final) :
    ((∀ n reached, exec MountTable.step MountTable.init (calls.take n) = some reached →
        MountsSurvive reached) ∧
      Meets MountTable.step FailsWhenFull MountTable.init calls) ↔
    Meets MountTable.step HasSlot MountTable.init calls := by
  have hgood : ∀ table, MountsHold table → MountsSurvive table := fun _ h => h.survive
  have hiff := meets_iff_forall_good hgood
    (fun table call next hhold (_ : True) hslot hstep => hhold.step hslot hstep)
    (fun table call next hhold _ hstep hsurvive => hhold.hasSlot hstep hsurvive)
    mountsHold_init (meets_of_forall (fun _ _ => trivial) _ _) hrun
  rw [← hiff]
  refine ⟨fun h => h.1, fun hslots => ⟨hslots, ?_⟩⟩
  exact meets_mono (fun table call hslot => failsWhenFull_of_hasSlot hslot) hslots

/-- A device whose boot sector is valid and has one sector in a cluster. -/
def plainDevice (a : ℕ) : UInt8 := if a = 13 then 1 else if a = 66 then 0x29 else 0

/-- Mount number `n` of that device. -/
def plainMount (n : ℕ) : MountCall := ⟨some 1, plainDevice, 0, n + 1, some n⟩

/-- One mount. -/
theorem mounts_survive_one :
    ((∀ n reached, exec MountTable.step MountTable.init (([plainMount 0]).take n) =
          some reached → MountsSurvive reached) ∧
      Meets MountTable.step FailsWhenFull MountTable.init [plainMount 0]) ↔
    Meets MountTable.step HasSlot MountTable.init [plainMount 0] := by
  exact mounts_survive_iff rfl

/-- The mount after the last slot has been taken gets the slot of the first. -/
theorem mounts_overwritten :
    ¬ ∀ (calls : List MountCall) (final : MountTable),
      exec MountTable.step MountTable.init calls = some final → MountsSurvive final := by
  intro hall
  have hrun : (exec MountTable.step MountTable.init ((List.range 65).map plainMount)).map
      (fun table => ((table.slots 0).bpb,
        table.mounted.head?.map fun mount => (mount.id, mount.slot.bpb))) =
      some (65, some (0, 1)) := by
    decide +kernel
  obtain ⟨final, hfinal, hvalues⟩ := Option.map_eq_some_iff.mp hrun
  obtain ⟨hslot, hhead⟩ := Prod.mk.inj hvalues
  obtain ⟨mount, hmount, hfields⟩ := Option.map_eq_some_iff.mp hhead
  obtain ⟨hid, hbpb⟩ := Prod.mk.inj hfields
  have hsurvive := (hall _ final hfinal).slot mount (List.mem_of_mem_head? hmount)
  rw [hid] at hsurvive
  rw [hsurvive, hbpb] at hslot
  exact absurd hslot (by decide)

end KimisOS.Fat32
