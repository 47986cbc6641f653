import KimisOS.Core.Windows
import KimisOS.Core.Words
import KimisOS.Core.Run
import KimisOS.Storage.DiskTable
import KimisOS.Storage.PartitionTable
import KimisOS.Storage.DiskTransfer

/-!
# Partitions are stores of their own

From the record in the first sector over `disk_references` and the check of the
partition manager down to the transfers of the disk driver: what is written
through one partition file is read back through it, and no other partition and
no sector between them changes.
-/

namespace KimisOS.Partition

open KimisOS.Run
open KimisOS.Words
open KimisOS.ByteStore
open KimisOS.Windows
open KimisOS.Disk (readDisk writeDisk ReadFits)

/-! ## The boot record -/

/-- The entry `i` of the table in the sector of an `mbr_t`. -/
def readEntry (sector : ℕ → UInt8) (i : Fin 4) : PartitionTableEntry where
  flags := sector (446 + 16 * i)
  type := sector (446 + 16 * i + 4)
  lbaAddress := wordAt sector (446 + 16 * i + 8)
  sectorCount := wordAt sector (446 + 16 * i + 12)

def readMbr (sector : ℕ → UInt8) : Mbr where
  partitionTable := readEntry sector
  sig := (sector 510).toUInt16 ||| (sector 511).toUInt16 <<< 8

/-- The message for one disk: its first sector is read into a new page. -/
def Table.addDisk (huge : Bool) (fresh : ℕ → UInt8) (devices : ℕ → ℕ → UInt8)
    (table : Table) (disk : Disk) : Option Table :=
  (readDisk huge 0 512 512 (devices disk.id) fresh fresh).map fun result =>
    deviceAdd table (some disk) (readMbr result.buffer)

/-! ## Requests -/

/-- What a caller asks of a partition file.  `fresh` is what the page of the driver
holds. -/
inductive Request where
  | read (file : PartFile) (offset count : UInt64) (buffer fresh : ℕ → UInt8)
  | write (file : PartFile) (offset count : UInt64) (bytes fresh : ℕ → UInt8)

/-- The disks, and the buffers of the callers that have read. -/
structure Stack where
  devices : ℕ → ℕ → UInt8
  buffers : List (ℕ → UInt8)

/-- A request from the partition file to the disk. -/
def Stack.step (references : ℕ → Pref) (huge : Bool) (stack : Stack) :
    Request → Option Stack
  | .read file offset count buffer fresh =>
      match readPart references (some file) true offset count with
      | .rejected => some { stack with buffers := stack.buffers ++ [buffer] }
      | .fault => none
      | .call _ disk diskOffset diskCount =>
          (readDisk huge diskOffset.toNat diskCount.toNat diskCount.toNat
            (stack.devices disk.id) fresh buffer).map fun result =>
              { stack with buffers := stack.buffers ++ [result.buffer] }
  | .write file offset count bytes fresh =>
      match writePart references (some file) true offset count with
      | .rejected => some stack
      | .fault => none
      | .call _ disk diskOffset diskCount =>
          (writeDisk huge diskOffset.toNat diskCount.toNat diskCount.toNat fresh bytes
            (stack.devices disk.id)).map fun result =>
              { stack with devices := Function.update stack.devices disk.id result.1 }

/-! ## What partitions are for -/

/-- One store for each partition file, and what has been read. -/
structure Volumes where
  stores : PartFile → ℕ → UInt8
  buffers : List (ℕ → UInt8)

/-- A request in range is one on the store of the file, any other changes nothing. -/
def Volumes.next (size : PartFile → ℕ) (volumes : Volumes) : Request → Volumes
  | .read file offset count buffer _ =>
      if 0 < count.toNat ∧ offset.toNat + count.toNat ≤ size file then
        { volumes with
          buffers := volumes.buffers ++
            [store buffer 0 (load (volumes.stores file) offset.toNat) count.toNat] }
      else { volumes with buffers := volumes.buffers ++ [buffer] }
  | .write file offset count bytes _ =>
      if 0 < count.toNat ∧ offset.toNat + count.toNat ≤ size file then
        { volumes with
          stores := Function.update volumes.stores file
            (store (volumes.stores file) offset.toNat bytes count.toNat) }
      else volumes

/-! ## Disks that have been added -/

section Added

variable {huge : Bool} {fresh : ℕ → UInt8} {devices : ℕ → ℕ → UInt8} {table : Table}

theorem readMbr_congr {sector sector' : ℕ → UInt8}
    (hsame : ∀ k < 512, sector k = sector' k) : readMbr sector = readMbr sector' := by
  have hword : ∀ place, place + 4 ≤ 512 → wordAt sector place = wordAt sector' place := by
    intro place hplace
    apply wordAt_congr
    intro i hi
    exact hsame _ (by omega)
  have hentry : readEntry sector = readEntry sector' := by
    funext i
    have hi := i.isLt
    rw [readEntry, readEntry, hword _ (by omega), hword _ (by omega), hsame _ (by omega),
      hsame _ (by omega)]
  rw [readMbr, readMbr, hentry, hsame 510 (by decide), hsame 511 (by decide)]

/-- The record that `device_add` reads is the one on the disk. -/
theorem addDisk_eq (table : Table) (disk : Disk) :
    table.addDisk huge fresh devices disk =
      some (deviceAdd table (some disk) (readMbr (devices disk.id))) := by
  obtain ⟨reached, -, hread⟩ := @Disk.readDisk_aligned huge 0 512 (devices disk.id) fresh
    fresh rfl (by decide) (by decide) (by decide)
  rw [Table.addDisk, hread, Option.map_some]
  congr 2
  apply readMbr_congr
  intro k hk
  exact (Disk.store_start hk).trans (by rw [load, Nat.zero_add])

/-- The files that have been made, with the disks they are on: no two slots are for one
disk, and every file has an entry of the record of its disk. -/
structure Attached (devices : ℕ → ℕ → UInt8) (table : Table) : Prop where
  live : ∀ vfile ∈ table.vfiles,
    (table.references vfile.file.id).parent = some vfile.disk ∧
      (table.references vfile.file.id).partitions vfile.file.slot = vfile.partent
  recorded : ∀ vfile ∈ table.vfiles, Accepted (readMbr (devices vfile.disk.id)) ∧
    (detectPartitions (readMbr (devices vfile.disk.id))).partitions[vfile.file.slot]? =
      some vfile.partent
  apart : ∀ i j first second, (table.references i).parent = some first →
    (table.references j).parent = some second → first.id = second.id → i = j

theorem attached_init (memory : ℕ → Slot) : Attached devices (Table.init memory) := by
  refine ⟨?_, ?_, ?_⟩
  · intro vfile hmem
    cases hmem
  · intro vfile hmem
    cases hmem
  · intro i j first second hfirst
    cases hfirst

/-- A disk that is in no slot yet. -/
theorem Attached.deviceAdd (hattached : Attached devices table) {disk : Disk}
    (hnew : ∀ i old, (table.references i).parent = some old → old.id ≠ disk.id) :
    Attached devices (Partition.deviceAdd table (some disk) (readMbr (devices disk.id))) ∧
      ∀ i old, ((Partition.deviceAdd table (some disk)
        (readMbr (devices disk.id))).references i).parent = some old →
          old = disk ∨ (table.references i).parent = some old := by
  unfold Partition.deviceAdd
  cases hslot : table.slotOf none with
  | none =>
      dsimp only
      exact ⟨hattached, fun i old hold => .inr hold⟩
  | some i =>
      have hfree := (slotOf_eq_some hslot).2
      have helsewhere : ∀ vfile ∈ table.vfiles, vfile.file.id ≠ i := by
        intro vfile hmem hid
        have hparent := (hattached.live vfile hmem).1
        rw [hid, hfree] at hparent
        cases hparent
      dsimp only
      split
      case isTrue =>
        have hparent : ∀ j old, ((⟨Function.update table.slots i zeroSlot,
            table.vfiles⟩ : Table).references j).parent = some old →
              (table.references j).parent = some old := by
          intro j old hold
          rw [references_update] at hold
          split at hold
          case isTrue => cases hold
          case isFalse => exact hold
        refine ⟨⟨?_, hattached.recorded, ?_⟩, fun j old hold => .inr (hparent j old hold)⟩
        · intro vfile hmem
          rw [references_update, if_neg (helsewhere vfile hmem)]
          exact hattached.live vfile hmem
        · intro j k first second hfirst hsecond
          exact hattached.apart j k first second (hparent j first hfirst)
            (hparent k second hsecond)
      case isFalse hstatus =>
        rw [not_not] at hstatus
        have hparent : ∀ j old, ((⟨Function.update table.slots i
            (recordPartitions { table.slots i with
              pref := { (table.slots i).pref with parent := some disk } }
              table.vfiles.length
              (detectPartitions (readMbr (devices disk.id))).partitions),
            table.vfiles ++ newVfiles i disk (detectPartitions
              (readMbr (devices disk.id))).partitions⟩ : Table).references j).parent =
                some old →
              (j = i ∧ old = disk) ∨ (j ≠ i ∧ (table.references j).parent = some old) := by
          intro j old hold
          rw [references_update] at hold
          split at hold
          case isTrue hj => exact .inl ⟨hj, (Option.some.inj hold).symm⟩
          case isFalse hj => exact .inr ⟨hj, hold⟩
        refine ⟨⟨?_, ?_, ?_⟩, ?_⟩
        · intro vfile hmem
          rw [references_update]
          obtain hold | hnew' := List.mem_append.mp hmem
          · rw [if_neg (helsewhere vfile hold)]
            exact hattached.live vfile hold
          · obtain ⟨hid, hdisk, -, hpartent⟩ := mem_newVfiles hnew'
            rw [if_pos hid, partitions_recordPartitions, hpartent, hdisk]
            exact ⟨rfl, rfl⟩
        · intro vfile hmem
          obtain hold | hnew' := List.mem_append.mp hmem
          · exact hattached.recorded vfile hold
          · obtain ⟨-, hdisk, -, hpartent⟩ := mem_newVfiles hnew'
            rw [hdisk]
            exact ⟨accepted_iff.mpr hstatus, hpartent⟩
        · intro j k first second hfirst hsecond hsame
          obtain ⟨hj, hfirst⟩ | ⟨hj, hfirst⟩ := hparent j first hfirst
          · obtain ⟨hk, -⟩ | ⟨-, hsecond⟩ := hparent k second hsecond
            · exact hj.trans hk.symm
            · exact absurd (hsame.symm.trans (congrArg Disk.id hfirst))
                (hnew k second hsecond)
          · obtain ⟨-, hsecond⟩ | ⟨-, hsecond⟩ := hparent k second hsecond
            · exact absurd (hsame.trans (congrArg Disk.id hsecond)) (hnew j first hfirst)
            · exact hattached.apart j k first second hfirst hsecond hsame
        · intro j old hold
          obtain ⟨-, hdisk⟩ | ⟨-, hold⟩ := hparent j old hold
          · exact .inl hdisk
          · exact .inr hold

/-- Disks with different numbers, one message for each. -/
theorem exec_addDisk (memory : ℕ → Slot) {disks : List Disk}
    (hdistinct : (disks.map Disk.id).Nodup) :
    ∃ final, exec (Table.addDisk huge fresh devices) (Table.init memory) disks = some final ∧
      Attached devices final ∧
      ∀ i disk, (final.references i).parent = some disk → disk ∈ disks := by
  have hrun : ∀ (table : Table) (rest : List Disk), Attached devices table →
      (rest.map Disk.id).Nodup →
      (∀ i old, (table.references i).parent = some old → old.id ∉ rest.map Disk.id) →
      ∃ final, exec (Table.addDisk huge fresh devices) table rest = some final ∧
        Attached devices final ∧ ∀ i disk, (final.references i).parent = some disk →
          disk ∈ rest ∨ (table.references i).parent = some disk := by
    intro table rest
    induction rest generalizing table with
    | nil => exact fun hattached _ _ => ⟨table, rfl, hattached, fun i disk => .inr⟩
    | cons disk rest ih =>
        intro hattached hnodup hnew
        obtain ⟨hfresh, hnodup⟩ := List.nodup_cons.mp hnodup
        obtain ⟨hadded, hparents⟩ := @Attached.deviceAdd devices table hattached disk
          (fun i old hold hid => hnew i old hold (hid ▸ List.mem_cons_self))
        obtain ⟨final, hexec, hfinal, hmem⟩ := ih _ hadded hnodup (by
          intro i old hold hid
          obtain rfl | hold := hparents i old hold
          · exact hfresh hid
          · exact hnew i old hold (List.mem_cons_of_mem _ hid))
        refine ⟨final, exec_cons_eq_some.mpr ⟨_, addDisk_eq table disk, hexec⟩, hfinal, ?_⟩
        intro i old hold
        obtain hrest | hold := hmem i old hold
        · exact .inl (List.mem_cons_of_mem _ hrest)
        · obtain rfl | hold := hparents i old hold
          · exact .inl List.mem_cons_self
          · exact .inr hold
  obtain ⟨final, hexec, hfinal, hmem⟩ := hrun (Table.init memory) disks
    (attached_init memory) hdistinct (by
      intro i old hold
      cases hold)
  refine ⟨final, hexec, hfinal, ?_⟩
  intro i disk hparent
  obtain hdisk | hold := hmem i disk hparent
  · exact hdisk
  · cases hold

/-! ## Where the partitions lie -/

/-- The file exists. -/
def Table.Made (table : Table) (file : PartFile) : Prop :=
  ∃ vfile ∈ table.vfiles, vfile.file = file

instance (table : Table) (file : PartFile) : Decidable (table.Made file) :=
  inferInstanceAs (Decidable (∃ vfile ∈ table.vfiles, vfile.file = file))

def Table.partent (table : Table) (file : PartFile) : Partent :=
  (table.references file.id).partitions file.slot

/-- The number of the disk of a file. -/
def Table.diskId (table : Table) (file : PartFile) : ℕ :=
  ((table.references file.id).parent.map Disk.id).getD 0

def Table.start (table : Table) (file : PartFile) : ℕ :=
  (table.partent file).startLba.toNat * 512

def Table.size (table : Table) (file : PartFile) : ℕ :=
  if table.Made file then (table.partent file).sectorCount.toNat * 512 else 0

theorem Attached.diskId_eq (hattached : Attached devices table) {vfile : PartitionVfile}
    (hmem : vfile ∈ table.vfiles) : table.diskId vfile.file = vfile.disk.id := by
  rw [Table.diskId, (hattached.live vfile hmem).1]
  rfl

/-- Partitions of one disk do not meet when the ends in its record fit. -/
theorem Attached.disjoint (hattached : Attached devices table)
    (hfits : ∀ vfile ∈ table.vfiles, EndsFit (readMbr (devices vfile.disk.id)))
    (first second : PartFile) (hne : first ≠ second)
    (hdisk : table.diskId first = table.diskId second) :
    table.start first + table.size first ≤ table.start second ∨
      table.start second + table.size second ≤ table.start first ∨
        table.size first = 0 ∨ table.size second = 0 := by
  by_cases hfirst : table.Made first
  · by_cases hsecond : table.Made second
    · obtain ⟨vfile, hmem, rfl⟩ := hfirst
      obtain ⟨vfile', hmem', rfl⟩ := hsecond
      obtain ⟨hparent, hpartent⟩ := hattached.live vfile hmem
      obtain ⟨hparent', hpartent'⟩ := hattached.live vfile' hmem'
      rw [hattached.diskId_eq hmem, hattached.diskId_eq hmem'] at hdisk
      have hid := hattached.apart _ _ _ _ hparent hparent' hdisk
      obtain ⟨haccepted, hentry⟩ := hattached.recorded vfile hmem
      obtain ⟨-, hentry'⟩ := hattached.recorded vfile' hmem'
      rw [← hdisk] at hentry'
      have hslot : vfile.file.slot ≠ vfile'.file.slot := by
        intro hslot
        apply hne
        cases hfile : vfile.file
        cases hfile' : vfile'.file
        rw [hfile, hfile'] at hid hslot
        exact congrArg₂ PartFile.mk hid hslot
      have hsound := detectPartitions_sound_iff.mpr (fun _ => hfits vfile hmem)
        (accepted_iff.mp haccepted)
      have hapart : Disjoint vfile.partent.sectors vfile'.partent.sectors := by
        obtain ⟨hlt, hget⟩ := List.getElem?_eq_some_iff.mp hentry
        obtain ⟨hlt', hget'⟩ := List.getElem?_eq_some_iff.mp hentry'
        rw [← hget, ← hget']
        obtain hless | hmore := Nat.lt_or_gt_of_ne hslot
        · exact List.pairwise_iff_getElem.mp hsound.disjoint _ _ hlt hlt' hless
        · exact (List.pairwise_iff_getElem.mp hsound.disjoint _ _ hlt' hlt hmore).symm
      have hends := Set.Ico_disjoint_Ico.mp hapart
      rw [Table.start, Table.start, Table.size, Table.size, Table.partent, Table.partent,
        hpartent, hpartent', if_pos ⟨vfile, hmem, rfl⟩, if_pos ⟨vfile', hmem', rfl⟩]
      omega
    · rw [Table.size, Table.size, if_neg hsecond]
      exact .inr (.inr (.inr rfl))
  · rw [Table.size, Table.size, if_neg hfirst]
    exact .inr (.inr (.inl rfl))

/-- The partitions as windows of the disks. -/
def Attached.layout (hattached : Attached devices table)
    (hfits : ∀ vfile ∈ table.vfiles, EndsFit (readMbr (devices vfile.disk.id))) :
    Layout PartFile ℕ where
  memory := table.diskId
  start := table.start
  size := table.size
  disjoint := hattached.disjoint hfits

end Added

/-! ## Requests on a file -/

section Requests

variable {references : ℕ → Pref} {file : PartFile} {disk : Disk} {offset count : UInt64}

/-- What becomes of a request that the bounds check and the translation get right. -/
theorem accessPart_handled (op : Operation)
    (hparent : (references file.id).parent = some disk) (hblock : disk.blockSizeBytes = 512)
    (hhandled : Handled ((references file.id).partitions file.slot) offset count) :
    (¬InRange ((references file.id).partitions file.slot) offset count ∧
        accessPart op references (some file) true offset count = .rejected) ∨
      (InRange ((references file.id).partitions file.slot) offset count ∧
        ∃ diskOffset, accessPart op references (some file) true offset count =
            .call op disk diskOffset count ∧
          diskOffset.toNat =
            ((references file.id).partitions file.slot).startLba.toNat * 512 +
              offset.toNat) := by
  have hcontained := (accessPart_contained_iff op references file disk offset count hparent
    hblock).mpr hhandled
  rw [accessPart_of_parent op offset count hparent] at hcontained ⊢
  split
  case isTrue hreject =>
    rw [if_pos hreject] at hcontained
    exact .inl ⟨hcontained, rfl⟩
  case isFalse haccept =>
    rw [if_neg haccept] at hcontained
    obtain ⟨hoffset, -, hinside⟩ := hcontained
    refine .inr ⟨⟨?_, hinside⟩, _, rfl, hoffset⟩
    rw [not_or] at haccept
    exact Nat.pos_of_ne_zero fun hzero => haccept.1 (UInt64.toNat_inj.mp hzero)

end Requests

/-! ## Runs of requests -/

/-- The file exists and the bounds check gets the request right.  What reaches the disk
is no more than 2 GiB; a write is aligned, and a read is one that `read_disk` gets
right. -/
def Table.Admissible (table : Table) (_ : Stack) : Request → Prop
  | .read file offset count _ _ =>
      table.Made file ∧ Handled (table.partent file) offset count ∧
        (InRange (table.partent file) offset count →
          ReadFits (table.start file + offset.toNat) count.toNat ∧
            table.start file + offset.toNat < 2 ^ 32)
  | .write file offset count _ _ =>
      table.Made file ∧ Handled (table.partent file) offset count ∧
        (InRange (table.partent file) offset count →
          offset.toNat % 512 = 0 ∧ count.toNat ≤ 2 ^ 31)

section Run

variable {huge : Bool} {devices : ℕ → ℕ → UInt8} {table : Table} {stack : Stack}
  {volumes : Volumes}

/-- The disks hold the stores, and what is in no partition is as it was. -/
structure Table.Holds (table : Table) (devices : ℕ → ℕ → UInt8) (stack : Stack)
    (volumes : Volumes) : Prop where
  buffers : stack.buffers = volumes.buffers
  views : ∀ file k, k < table.size file →
    stack.devices (table.diskId file) (table.start file + k) = volumes.stores file k
  outside : ∀ disk a, (∀ file, table.Made file → table.diskId file = disk →
    a < table.start file ∨ table.start file + table.size file ≤ a) →
      stack.devices disk a = devices disk a

theorem Table.size_of_made {file : PartFile} (hmade : table.Made file) :
    table.size file = (table.partent file).sectorCount.toNat * 512 := if_pos hmade

theorem inRange_iff {file : PartFile} (hmade : table.Made file) (offset count : UInt64) :
    InRange (table.partent file) offset count ↔
      0 < count.toNat ∧ offset.toNat + count.toNat ≤ table.size file := by
  rw [Table.size_of_made hmade]
  rfl

/-- A read that fits replaces the first bytes of the buffer by those of the range. -/
theorem readDisk_fits {offset count : ℕ} (hfits : ReadFits offset count)
    (hoffset : offset < 2 ^ 32) (hsome : 1 ≤ count) (device fresh buffer : ℕ → UInt8) :
    ∃ reached returned, readDisk huge offset count count device fresh buffer =
      some ⟨store buffer 0 (load device offset) count, reached, returned⟩ := by
  obtain ⟨hint, hplace⟩ := hfits
  have hmax : count ≤ 2 ^ 31 := by omega
  by_cases hunaligned : offset % 512 = 0
  · obtain ⟨reached, -, hread⟩ := @Disk.readDisk_aligned huge offset count device fresh
      buffer hunaligned hsome hmax hoffset
    exact ⟨reached, _, hread⟩
  · -- the whole range lies in the page of its first sector
    have hpage : offset % 512 + count ≤ 4096 := by omega
    have hbytes : store buffer 0 (Disk.headPage device fresh offset) count =
        store buffer 0 (load device offset) count :=
      store_congr fun k hk => Disk.headPage_eq (by omega)
    rw [← hbytes]
    obtain haligned | ⟨hnear, hinside⟩ | ⟨hfar, -, hword⟩ := hplace
    · exact absurd haligned hunaligned
    · exact ⟨_, _, Disk.readDisk_near hunaligned hsome hnear hinside⟩
    · have hread := @Disk.readDisk_far huge offset count count device fresh buffer hunaligned
        hsome hmax hfar hoffset
      rw [min_eq_left (by omega)] at hread
      exact ⟨_, _, hread⟩

/-- What a made file has for a parent. -/
theorem Attached.parent (hattached : Attached devices table) {file : PartFile}
    (hmade : table.Made file) : ∃ vfile ∈ table.vfiles,
      (table.references file.id).parent = some vfile.disk ∧
        table.diskId file = vfile.disk.id := by
  obtain ⟨vfile, hmem, rfl⟩ := hmade
  exact ⟨vfile, hmem, (hattached.live vfile hmem).1, hattached.diskId_eq hmem⟩

theorem Table.Holds.read (hholds : table.Holds devices stack volumes)
    (hattached : Attached devices table)
    (hblocks : ∀ vfile ∈ table.vfiles, vfile.disk.blockSizeBytes = 512)
    {file : PartFile} {offset count : UInt64} {buffer fresh : ℕ → UInt8}
    (hok : table.Admissible stack (.read file offset count buffer fresh)) :
    ∃ reached, stack.step table.references huge (.read file offset count buffer fresh) =
      some reached ∧ table.Holds devices reached
        (volumes.next table.size (.read file offset count buffer fresh)) := by
  obtain ⟨hmade, hhandled, hfits⟩ := hok
  obtain ⟨vfile, hmem, hparent, hdisk⟩ := hattached.parent hmade
  obtain ⟨hout, haccess⟩ | ⟨hrange, diskOffset, haccess, hoffset⟩ :=
    accessPart_handled .read hparent (hblocks vfile hmem) hhandled
  · refine ⟨⟨stack.devices, stack.buffers ++ [buffer]⟩, ?_, ?_⟩
    · simp only [Stack.step, readPart, haccess]
    · rw [Volumes.next, if_neg (mt (inRange_iff hmade offset count).mpr hout)]
      exact ⟨congrArg (· ++ [buffer]) hholds.buffers, hholds.views, hholds.outside⟩
  · obtain ⟨hfit, hword⟩ := hfits hrange
    obtain ⟨hsome, hinside⟩ := (inRange_iff hmade offset count).mp hrange
    have hplace : table.start file + offset.toNat = diskOffset.toNat := hoffset.symm
    rw [hplace] at hfit hword
    obtain ⟨reached, returned, hread⟩ := @readDisk_fits huge _ _ hfit hword hsome
      (stack.devices vfile.disk.id) fresh buffer
    have hbytes : store buffer 0 (load (stack.devices vfile.disk.id) diskOffset.toNat)
        count.toNat =
          store buffer 0 (load (volumes.stores file) offset.toNat) count.toNat := by
      apply store_congr
      intro k hk
      rw [load, load, ← hplace, ← hdisk, Nat.add_assoc]
      exact hholds.views file (offset.toNat + k) (by omega)
    rw [hbytes] at hread
    refine ⟨⟨stack.devices, stack.buffers ++
      [store buffer 0 (load (volumes.stores file) offset.toNat) count.toNat]⟩, ?_, ?_⟩
    · simp only [Stack.step, readPart, haccess, hread, Option.map_some]
    · rw [Volumes.next, if_pos ⟨hsome, hinside⟩]
      refine ⟨?_, hholds.views, hholds.outside⟩
      dsimp only
      rw [hholds.buffers]

theorem Table.Holds.write (hholds : table.Holds devices stack volumes)
    (hattached : Attached devices table)
    (hfits : ∀ vfile ∈ table.vfiles, EndsFit (readMbr (devices vfile.disk.id)))
    (hblocks : ∀ vfile ∈ table.vfiles, vfile.disk.blockSizeBytes = 512)
    {file : PartFile} {offset count : UInt64} {bytes fresh : ℕ → UInt8}
    (hok : table.Admissible stack (.write file offset count bytes fresh)) :
    ∃ reached, stack.step table.references huge (.write file offset count bytes fresh) =
      some reached ∧ table.Holds devices reached
        (volumes.next table.size (.write file offset count bytes fresh)) := by
  obtain ⟨hmade, hhandled, haligned⟩ := hok
  obtain ⟨vfile, hmem, hparent, hdisk⟩ := hattached.parent hmade
  obtain ⟨hout, haccess⟩ | ⟨hrange, diskOffset, haccess, hoffset⟩ :=
    accessPart_handled .write hparent (hblocks vfile hmem) hhandled
  · refine ⟨stack, ?_, ?_⟩
    · simp only [Stack.step, writePart, haccess]
    · rw [Volumes.next, if_neg (mt (inRange_iff hmade offset count).mpr hout)]
      exact hholds
  · obtain ⟨hsector, hmax⟩ := haligned hrange
    obtain ⟨hsome, hinside⟩ := (inRange_iff hmade offset count).mp hrange
    have hplace : diskOffset.toNat = table.start file + offset.toNat := hoffset
    have hstart : table.start file = (table.partent file).startLba.toNat * 512 := rfl
    have hword := (table.partent file).startLba.toNat_lt
    have hsectors := (table.partent file).sectorCount.toNat_lt
    have hend : offset.toNat + count.toNat ≤ (table.partent file).sectorCount.toNat * 512 :=
      hrange.2
    have hwrite := @Disk.writeDisk_aligned huge diskOffset.toNat count.toNat fresh bytes
      (stack.devices vfile.disk.id) (by omega) hsome hmax (by omega)
    rw [hplace, ← hdisk] at hwrite
    refine ⟨⟨Function.update stack.devices (table.diskId file)
      (store (stack.devices (table.diskId file)) (table.start file + offset.toNat) bytes
        count.toNat), stack.buffers⟩, ?_, ?_⟩
    · simp only [Stack.step, writePart, haccess, hplace, ← hdisk, hwrite, Option.map_some]
    · rw [Volumes.next, if_pos ⟨hsome, hinside⟩]
      refine ⟨hholds.buffers, ?_, ?_⟩
      · exact @Layout.Views.store _ _ (hattached.layout hfits) stack.devices volumes.stores
          file offset.toNat count.toNat _ _ hholds.views hinside bytes
      · intro disk a hout
        rw [← hholds.outside disk a hout]
        exact @Layout.store_outside_windows _ _ (hattached.layout hfits) stack.devices file
          offset.toNat count.toNat _ hinside bytes disk a (hout file hmade)

/-- A disk with two partitions of 2048 sectors, from sectors 2048 and 4096 on. -/
def twoPartitions : ℕ → UInt8 := fun a =>
  if a = 446 then 0x80 else if a = 450 ∨ a = 466 then 0x0c
  else if a = 455 ∨ a = 459 ∨ a = 475 then 0x08 else if a = 471 then 0x10
  else if a = 510 then 0x55 else if a = 511 then 0xaa else 0

end Run

end KimisOS.Partition
