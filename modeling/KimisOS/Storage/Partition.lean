import Mathlib

/-!
# The partition manager

`detect_partitions` turns a master boot record into partition files, and
`read_part`/`write_part` forward a request on such a file to the parent disk
after a bounds check.  All fields keep the widths they have in
`partition_mgr.h`: the check compares a 64-bit sum with a 32-bit limit, and
the translation to a disk offset multiplies a 32-bit sector number.
-/

namespace KimisOS.Partition

/-- One entry of the partition table of a boot record. -/
structure PartitionTableEntry where
  flags : UInt8
  type : UInt8
  lbaAddress : UInt32
  sectorCount : UInt32
  deriving DecidableEq

structure Mbr where
  partitionTable : Fin 4 → PartitionTableEntry
  sig : UInt16

/-- What `detect_partitions` records of an accepted entry. -/
structure Partent where
  startLba : UInt32
  sectorCount : UInt32
  deriving DecidableEq

/-- The disk a partition lives on, with the block size its driver reports. -/
structure Disk where
  id : ℕ
  blockSizeBytes : UInt16
  deriving DecidableEq

/-- One slot of `disk_references`. -/
structure Pref where
  parent : Option Disk
  partitions : ℕ → Partent

/-- A partition file: `id` selects the disk reference and `private` points at
one of its partitions. -/
structure PartFile where
  id : ℕ
  slot : ℕ
  deriving DecidableEq

/-! ## Reading the partition table -/

def mbrBootable : UInt8 := 0x80

/-- The overlap test of two entries, with the ends computed in 32 bits. -/
def overlaps (a b : PartitionTableEntry) : Bool :=
  a.lbaAddress < b.lbaAddress + b.sectorCount &&
    b.lbaAddress < a.lbaAddress + a.sectorCount

/-- The flags the validation loop of `detect_partitions` computes. -/
structure MbrScan where
  useGpt : Bool
  mbrIsValid : Bool
  foundValidPartition : Bool
  deriving DecidableEq

/-- The validation loop, from entry `i` on; each early exit of the loop body
is an early exit here. -/
def scanMbr (mbr : Mbr) (found : Bool) : List (Fin 4) → MbrScan
  | [] => ⟨false, true, found⟩
  | i :: rest =>
      let entry := mbr.partitionTable i
      if entry.type = 0xee then ⟨true, true, found⟩
      else if entry.flags ≠ 0 ∧ entry.flags ≠ mbrBootable then
        ⟨false, false, found⟩
      else
        let found := found || (entry.sectorCount != 0 && entry.lbaAddress != 0)
        if (List.finRange 4).any fun j =>
            overlaps entry (mbr.partitionTable j) && i != j then
          ⟨false, false, found⟩
        else scanMbr mbr found rest

/-- The result of `detect_partitions`: its return value, and the partitions
it has recorded, in the order of their files. -/
structure Detected where
  status : ℤ
  partitions : List Partent
  deriving DecidableEq

def detectPartitions (mbr : Mbr) : Detected :=
  if mbr.sig ≠ 0xaa55 then ⟨-1, []⟩
  else
    let scan := scanMbr mbr false (List.finRange 4)
    if !scan.mbrIsValid || !scan.foundValidPartition then ⟨-1, []⟩
    else if scan.useGpt then ⟨-2, []⟩
    else
      ⟨0, (List.finRange 4).filterMap fun i =>
        let entry := mbr.partitionTable i
        if entry.sectorCount ≠ 0 then
          some ⟨entry.lbaAddress, entry.sectorCount⟩
        else none⟩

/-! ## Requests on a partition file -/

inductive Operation where
  | read
  | write
  deriving DecidableEq

/-- What a request comes to: `return 0` without touching a device, a call of
the parent's own operation, or a jump through a null parent. -/
inductive Outcome where
  | rejected
  | call (op : Operation) (disk : Disk) (offset count : UInt64)
  | fault
  deriving DecidableEq

/-- The right-hand side of the bounds check, a 32-bit sum of a sector number
and a number of bytes. -/
def byteLimit (partent : Partent) : UInt32 :=
  partent.startLba + partent.sectorCount * 512

/-- The common body of `write_part` and `read_part`. -/
def accessPart (op : Operation) (diskReferences : ℕ → Pref)
    (fileEntry : Option PartFile) (buffer : Bool) (offset count : UInt64) :
    Outcome :=
  match fileEntry with
  | none => .rejected
  | some file =>
      if !buffer || count = 0 then .rejected
      else
        let partent := (diskReferences file.id).partitions file.slot
        if count + offset > (byteLimit partent).toUInt64 then .rejected
        else
          match (diskReferences file.id).parent with
          | none => .fault
          | some parent =>
              .call op parent
                (offset + (partent.startLba *
                  parent.blockSizeBytes.toUInt32).toUInt64) count

def writePart := accessPart .write

def readPart := accessPart .read

/-! ## Containment -/

/-- The request asks for at least one byte and ends inside the partition, as
mathematical integers. -/
def InRange (partent : Partent) (offset count : UInt64) : Prop :=
  0 < count.toNat ∧
    offset.toNat + count.toNat ≤ partent.sectorCount.toNat * 512

/-- A request on a partition is contained: it is rejected, or it reaches the
parent at its exact byte offset and inside the partition; and a request in
range is not rejected. -/
def Contained (partent : Partent) (offset count : UInt64) :
    Outcome → Prop
  | .rejected => ¬ InRange partent offset count
  | .call _ _ diskOffset diskCount =>
      diskOffset.toNat = partent.startLba.toNat * 512 + offset.toNat ∧
        diskCount = count ∧
        offset.toNat + count.toNat ≤ partent.sectorCount.toNat * 512
  | .fault => False

instance (partent : Partent) (offset count : UInt64) :
    Decidable (InRange partent offset count) :=
  inferInstanceAs (Decidable (_ ∧ _))

/-- The bounds check's limit as a number: a sector number plus a number of
bytes, modulo `2 ^ 32`. -/
def limitBytes (partent : Partent) : ℕ :=
  (partent.startLba.toNat + partent.sectorCount.toNat * 512) % 2 ^ 32

/-- The requests the bounds check and the translation get right.  Inside the
partition, the end must pass the 32-bit limit and the start of the partition
must fit 32 bits in bytes; outside, the 64-bit sum must exceed the limit. -/
def Handled (partent : Partent) (offset count : UInt64) : Prop :=
  (InRange partent offset count ∧
    offset.toNat + count.toNat ≤ limitBytes partent ∧
      partent.startLba.toNat < 2 ^ 23) ∨
  (¬ InRange partent offset count ∧
    (count.toNat = 0 ∨
      limitBytes partent < (offset.toNat + count.toNat) % 2 ^ 64))

instance (partent : Partent) (offset count : UInt64) :
    Decidable (Handled partent offset count) :=
  inferInstanceAs (Decidable (_ ∨ _))

theorem toNat_byteLimit (partent : Partent) :
    (byteLimit partent).toNat = limitBytes partent := by
  simp [byteLimit, limitBytes, UInt32.toNat_add, UInt32.toNat_mul]

theorem exceedsLimit_iff (partent : Partent) (offset count : UInt64) :
    count + offset > (byteLimit partent).toUInt64 ↔
      limitBytes partent < (offset.toNat + count.toNat) % 2 ^ 64 := by
  rw [gt_iff_lt, UInt64.lt_iff_toNat_lt, UInt64.toNat_add,
    UInt32.toNat_toUInt64, toNat_byteLimit, Nat.add_comm count.toNat]

/-- On a disk with 512-byte blocks the translated offset is exact whenever the
partition starts below 4 GiB and the request lies inside it. -/
theorem toNat_diskOffset (partent : Partent) (offset : UInt64)
    (hoffset : offset.toNat ≤ partent.sectorCount.toNat * 512) :
    (offset + (partent.startLba * (512 : UInt16).toUInt32).toUInt64).toNat =
      partent.startLba.toNat * 512 + offset.toNat ↔
        partent.startLba.toNat < 2 ^ 23 := by
  have hstart := partent.startLba.toNat_lt
  have hsectors := partent.sectorCount.toNat_lt
  have hblock : (512 : UInt16).toUInt32.toNat = 512 := rfl
  rw [UInt64.toNat_add, UInt32.toNat_toUInt64, UInt32.toNat_mul, hblock]
  omega

theorem accessPart_of_parent (op : Operation) {diskReferences : ℕ → Pref}
    {file : PartFile} {disk : Disk} (offset count : UInt64)
    (hparent : (diskReferences file.id).parent = some disk) :
    accessPart op diskReferences (some file) true offset count =
      if count = 0 ∨
          count + offset > (byteLimit
            ((diskReferences file.id).partitions file.slot)).toUInt64 then
        .rejected
      else
        .call op disk
          (offset + (((diskReferences file.id).partitions file.slot).startLba *
            disk.blockSizeBytes.toUInt32).toUInt64) count := by
  by_cases hcount : count = 0 <;>
    by_cases hlimit : count + offset > (byteLimit
      ((diskReferences file.id).partitions file.slot)).toUInt64 <;>
    simp [accessPart, hparent, hcount, hlimit]

/-- Every request through a partition file of a disk with 512-byte blocks is
contained exactly when the bounds check and the translation get it right. -/
theorem accessPart_contained_iff (op : Operation) (diskReferences : ℕ → Pref)
    (file : PartFile) (disk : Disk) (offset count : UInt64)
    (hparent : (diskReferences file.id).parent = some disk)
    (hblock : disk.blockSizeBytes = 512) :
    Contained ((diskReferences file.id).partitions file.slot) offset count
        (accessPart op diskReferences (some file) true offset count) ↔
      Handled ((diskReferences file.id).partitions file.slot) offset count := by
  rw [accessPart_of_parent op offset count hparent, hblock]
  generalize (diskReferences file.id).partitions file.slot = partent
  have hzero : count = 0 ↔ count.toNat = 0 := by
    rw [← UInt64.toNat_inj]
    rfl
  have hsectors := partent.sectorCount.toNat_lt
  by_cases hreject : count = 0 ∨ count + offset > (byteLimit partent).toUInt64
  · rw [if_pos hreject]
    rw [exceedsLimit_iff, hzero] at hreject
    simp only [Contained, Handled, InRange]
    omega
  · rw [if_neg hreject]
    rw [exceedsLimit_iff, hzero] at hreject
    simp only [Contained, Handled, InRange, true_and]
    constructor
    · rintro ⟨hoffset, hinside⟩
      rw [toNat_diskOffset partent offset (by omega)] at hoffset
      left
      omega
    · rintro (⟨hrange, -, hstart⟩ | ⟨-, houtside⟩)
      · exact ⟨(toNat_diskOffset partent offset (by omega)).mpr hstart,
          hrange.2⟩
      · omega

/-- One disk with a partition of 2048 sectors that starts at sector 2048. -/
def sampleReferences : ℕ → Pref := fun _ =>
  ⟨some ⟨0, 512⟩, fun _ => ⟨2048, 2048⟩⟩

def sampleMbr : Mbr where
  partitionTable i :=
    if i = 0 then ⟨0x80, 0x0c, 2048, 2048⟩ else ⟨0, 0, 0, 0⟩
  sig := 0xaa55

/-- A request for the first sector of the partition is contained. -/
theorem accessPart_contained_firstSector :
    Contained ⟨2048, 2048⟩ 0 512
      (accessPart .read sampleReferences (some ⟨0, 0⟩) true 0 512) := by
  have hiff := accessPart_contained_iff .read sampleReferences ⟨0, 0⟩ ⟨0, 512⟩
    0 512 rfl rfl
  refine hiff.mpr ?_
  change Handled ⟨2048, 2048⟩ 0 512
  decide

/-- The sector right after the partition is read and written through it: the
limit is too large by `start_lba` bytes. -/
theorem accessPart_past_end :
    detectPartitions sampleMbr = ⟨0, [⟨2048, 2048⟩]⟩ ∧
      ¬ Contained ⟨2048, 2048⟩ 1048576 512
        (readPart sampleReferences (some ⟨0, 0⟩) true 1048576 512) ∧
      ¬ Contained ⟨2048, 2048⟩ 1048576 512
        (writePart sampleReferences (some ⟨0, 0⟩) true 1048576 512) := by
  have hread : readPart sampleReferences (some ⟨0, 0⟩) true 1048576 512 =
      .call .read ⟨0, 512⟩ 2097152 512 := by decide
  have hwrite : writePart sampleReferences (some ⟨0, 0⟩) true 1048576 512 =
      .call .write ⟨0, 512⟩ 2097152 512 := by decide
  refine ⟨by decide, ?_, ?_⟩
  · rw [hread]
    rintro ⟨-, -, hinside⟩
    exact absurd hinside (by decide)
  · rw [hwrite]
    rintro ⟨-, -, hinside⟩
    exact absurd hinside (by decide)

end KimisOS.Partition
