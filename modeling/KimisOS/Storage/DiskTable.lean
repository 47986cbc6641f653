import KimisOS.Core.Run
import KimisOS.Storage.Partition

/-!
# Partition files and their disks

A partition file holds the number of a slot of `disk_references` and a pointer
to one of its partitions.  Neither is changed when the disk is removed, and
deleting the file does nothing.  The file stays with its disk exactly if no
other disk fills the entry it points to.
-/

namespace KimisOS.Partition

open KimisOS.Run

/-! ## The table -/

def maxReferences : ℕ := 32

/-- `pref_t`: the disk and its partitions, and the `file` fields of these. -/
structure Slot where
  pref : Pref
  file : ℕ → Option ℕ

def zeroPartent : Partent := ⟨0, 0⟩

/-- `(pref_t){0}`. -/
def zeroSlot : Slot := ⟨⟨none, fun _ => zeroPartent⟩, fun _ => none⟩

/-- A file that `detect_partitions` has made, with the disk and the partition
it was made for, and whether that disk has been removed since. -/
structure PartitionVfile where
  file : PartFile
  disk : Disk
  partent : Partent
  removed : Bool
  deriving DecidableEq

/-- `disk_references`, and the files made so far. -/
structure Table where
  slots : ℕ → Slot
  vfiles : List PartitionVfile

def Table.references (table : Table) (i : ℕ) : Pref := (table.slots i).pref

/-- `init` on the memory that `malloc` returns: only the `parent` fields are
cleared. -/
def Table.init (memory : ℕ → Slot) : Table where
  slots i := { memory i with pref := { (memory i).pref with parent := none } }
  vfiles := []

/-- The first slot whose `parent` is that pointer. -/
def Table.slotOf (table : Table) (file : Option Disk) : Option ℕ :=
  (List.range maxReferences).find? fun i => (table.slots i).pref.parent = file

/-- The part of `detect_partitions` that fills the entries of a slot. -/
def recordPartitions (slot : Slot) (next : ℕ) (partitions : List Partent) : Slot where
  pref := { slot.pref with
    partitions := fun k => partitions[k]?.getD (slot.pref.partitions k) }
  file := fun k => if k < partitions.length then some (next + k) else slot.file k

def newVfiles (i : ℕ) (disk : Disk) (partitions : List Partent) : List PartitionVfile :=
  partitions.mapIdx fun k partent => ⟨⟨i, k⟩, disk, partent, false⟩

/-- `device_add` of a file whose first sector is read as `mbr`. -/
def deviceAdd (table : Table) (file : Option Disk) (mbr : Mbr) : Table :=
  match table.slotOf none, file with
  | none, _ => table
  | some _, none => table
  | some i, some disk =>
      let slot := table.slots i
      let slot := { slot with pref := { slot.pref with parent := some disk } }
      let detected := detectPartitions mbr
      if detected.status ≠ 0 then
        { table with slots := Function.update table.slots i zeroSlot }
      else
        { slots := Function.update table.slots i
            (recordPartitions slot table.vfiles.length detected.partitions)
          vfiles := table.vfiles ++ newVfiles i disk detected.partitions }

/-- The loop of `device_remove` from partition `j` on.  `MODULE_API_DELET` calls
`delete` of the file, which is null; `none` is a pointer to no file, or a read
behind the 127 entries. -/
def clearPartitions (slot : Slot) (vfileCount : ℕ) : ℕ → ℕ → Option Slot
  | 0, _ => some slot
  | rounds + 1, j =>
      if 127 ≤ j then none
      else
        match slot.file j with
        | none => some slot
        | some vfile =>
            if vfile < vfileCount then
              clearPartitions
                { pref := { slot.pref with
                    partitions := Function.update slot.pref.partitions j zeroPartent }
                  file := Function.update slot.file j none }
                vfileCount rounds (j + 1)
            else none

/-- From now on the disk of these files counts as removed. -/
def markRemoved (file : Option Disk) (vfiles : List PartitionVfile) : List PartitionVfile :=
  vfiles.map fun vfile =>
    if file = some vfile.disk then { vfile with removed := true } else vfile

/-- `device_remove`. -/
def deviceRemove (table : Table) (file : Option Disk) : Option Table :=
  match table.slotOf file with
  | none => some { table with vfiles := markRemoved file table.vfiles }
  | some i =>
      match clearPartitions (table.slots i) table.vfiles.length 128 0 with
      | none => none
      | some _ =>
          some
            { slots := Function.update table.slots i zeroSlot
              vfiles := markRemoved file table.vfiles }

inductive DeviceEvent where
  | add (file : Option Disk) (mbr : Mbr)
  | remove (file : Option Disk)

def Table.step (table : Table) : DeviceEvent → Option Table
  | .add file mbr => some (deviceAdd table file mbr)
  | .remove file => deviceRemove table file

/-! ## The law and its condition -/

/-- A request on a partition file reaches the disk the file was made for, at the
start that was recorded, and no device once that disk has been removed.  The
requests whose end wraps to zero pass every bounds check and are left out. -/
def StaysWithDisk (table : Table) : Prop :=
  ∀ vfile ∈ table.vfiles, ∀ op offset count, count + offset ≠ 0 →
    (vfile.removed = true →
      accessPart op table.references (some vfile.file) true offset count = .rejected) ∧
    (vfile.removed = false →
      accessPart op table.references (some vfile.file) true offset count = .rejected ∨
      accessPart op table.references (some vfile.file) true offset count =
        .call op vfile.disk
          (offset + (vfile.partent.startLba * vfile.disk.blockSizeBytes.toUInt32).toUInt64)
          count)

/-- A disk that is added fills no entry that a partition file points to, and a
disk that is removed has no partition file in a further slot.  A partition whose
bounds check lets no request through does not count. -/
def Unaliased (table : Table) : DeviceEvent → Prop
  | .add none _ => True
  | .add (some _) mbr => ∀ i, table.slotOf none = some i → (detectPartitions mbr).status = 0 →
      ∀ vfile ∈ table.vfiles, vfile.file.id = i → ∀ partent,
        (detectPartitions mbr).partitions[vfile.file.slot]? = some partent →
          byteLimit partent = 0
  | .remove file => ∀ i, table.slotOf file = some i → ∀ vfile ∈ table.vfiles,
      file = some vfile.disk → vfile.removed = false → vfile.file.id ≠ i →
        byteLimit vfile.partent = 0

/-- What the table knows of the files it has made. -/
structure Tracked (table : Table) : Prop where
  live : ∀ vfile ∈ table.vfiles, vfile.removed = false →
    (table.references vfile.file.id).parent = some vfile.disk ∧
      (table.references vfile.file.id).partitions vfile.file.slot = vfile.partent
  gone : ∀ vfile ∈ table.vfiles, vfile.removed = true →
    byteLimit ((table.references vfile.file.id).partitions vfile.file.slot) = 0
  inside : ∀ vfile ∈ table.vfiles, vfile.file.id < maxReferences

/-! ## Requests -/

theorem byteLimit_zeroPartent : byteLimit zeroPartent = 0 := by decide

theorem accessPart_rejected {references : ℕ → Pref} {file : PartFile} {offset count : UInt64}
    (op : Operation)
    (hlimit : byteLimit ((references file.id).partitions file.slot) = 0)
    (hend : count + offset ≠ 0) :
    accessPart op references (some file) true offset count = .rejected := by
  have hpast : count + offset >
      (byteLimit ((references file.id).partitions file.slot)).toUInt64 := by
    rw [hlimit]
    exact UInt64.pos_iff_ne_zero.mpr hend
  by_cases hcount : count = 0 <;> simp [accessPart, hcount, hpast]

/-- A request for the first byte tells whether any request gets through. -/
theorem byteLimit_eq_zero {references : ℕ → Pref} {file : PartFile} {disk : Disk}
    (hparent : (references file.id).parent = some disk)
    (hrejected : accessPart .read references (some file) true 0 1 = .rejected) :
    byteLimit ((references file.id).partitions file.slot) = 0 := by
  rw [accessPart_of_parent .read 0 1 hparent] at hrejected
  by_contra hlimit
  have hone : ¬ ((1 : UInt64) = 0 ∨ (1 : UInt64) + 0 >
      (byteLimit ((references file.id).partitions file.slot)).toUInt64) := by
    rintro (h | h)
    · exact absurd h (by decide)
    · rw [gt_iff_lt, UInt64.lt_iff_toNat_lt, UInt32.toNat_toUInt64] at h
      have hnat : (byteLimit ((references file.id).partitions file.slot)).toNat ≠ 0 := by
        intro hzero
        exact hlimit (UInt32.toNat_inj.mp hzero)
      simp at h
      omega
  rw [if_neg hone] at hrejected
  simp at hrejected

theorem Tracked.stays {table : Table} (htracked : Tracked table) : StaysWithDisk table := by
  intro vfile hmem op offset count hend
  refine ⟨fun hremoved => accessPart_rejected op (htracked.gone vfile hmem hremoved) hend, ?_⟩
  intro hlive
  obtain ⟨hparent, hpartent⟩ := htracked.live vfile hmem hlive
  rw [accessPart_of_parent op offset count hparent, hpartent]
  split
  · exact Or.inl rfl
  · exact Or.inr rfl

/-! ## The search for a slot -/

theorem slotOf_eq_some {table : Table} {file : Option Disk} {i : ℕ}
    (hslot : table.slotOf file = some i) :
    i < maxReferences ∧ (table.references i).parent = file := by
  have hmem := List.mem_of_find?_eq_some hslot
  have hparent := List.find?_some hslot
  exact ⟨List.mem_range.mp hmem, by simpa [Table.references] using hparent⟩

theorem slotOf_eq_none {table : Table} {file : Option Disk} {i : ℕ}
    (hslot : table.slotOf file = none) (hi : i < maxReferences) :
    (table.references i).parent ≠ file := by
  have hall := List.find?_eq_none.mp hslot i (List.mem_range.mpr hi)
  simpa [Table.references] using hall

theorem mem_newVfiles {i : ℕ} {disk : Disk} {partitions : List Partent}
    {vfile : PartitionVfile} (hmem : vfile ∈ newVfiles i disk partitions) :
    vfile.file.id = i ∧ vfile.disk = disk ∧ vfile.removed = false ∧
      partitions[vfile.file.slot]? = some vfile.partent := by
  obtain ⟨k, hk, rfl⟩ := List.mem_mapIdx.mp hmem
  exact ⟨rfl, rfl, rfl, List.getElem?_eq_getElem hk⟩

theorem mem_markRemoved {file : Option Disk} {vfiles : List PartitionVfile}
    {vfile : PartitionVfile} (hmem : vfile ∈ markRemoved file vfiles) :
    ∃ old ∈ vfiles, vfile.file = old.file ∧ vfile.disk = old.disk ∧
      vfile.partent = old.partent ∧
      (vfile.removed = true ↔ old.removed = true ∨ file = some old.disk) := by
  obtain ⟨old, hold, rfl⟩ := List.mem_map.mp hmem
  by_cases hfile : file = some old.disk
  · exact ⟨old, hold, by simp [hfile]⟩
  · exact ⟨old, hold, by simp [hfile]⟩

/-! ## The steps -/

theorem tracked_init (memory : ℕ → Slot) : Tracked (Table.init memory) where
  live := by
    intro vfile hmem
    simp [Table.init] at hmem
  gone := by
    intro vfile hmem
    simp [Table.init] at hmem
  inside := by
    intro vfile hmem
    simp [Table.init] at hmem

/-- The table with one slot replaced. -/
theorem references_update (table : Table) (vfiles : List PartitionVfile) (i j : ℕ)
    (slot : Slot) :
    (⟨Function.update table.slots i slot, vfiles⟩ : Table).references j =
      if j = i then slot.pref else table.references j := by
  by_cases hj : j = i
  · subst hj
    simp [Table.references]
  · simp [Table.references, hj]

/-- The entry of a partition after a disk has filled the slot. -/
theorem partitions_recordPartitions (slot : Slot) (next : ℕ) (partitions : List Partent)
    (k : ℕ) : (recordPartitions slot next partitions).pref.partitions k =
      partitions[k]?.getD (slot.pref.partitions k) := rfl

theorem Tracked.deviceAdd {table : Table} (htracked : Tracked table) {file : Option Disk}
    {mbr : Mbr} (hok : Unaliased table (.add file mbr)) :
    Tracked (Partition.deviceAdd table file mbr) := by
  unfold Partition.deviceAdd
  split
  next => exact htracked
  next => exact htracked
  next i disk hslot =>
    obtain ⟨hi, hfree⟩ := slotOf_eq_some hslot
    -- a file whose disk is still there does not live in the free slot
    have helsewhere : ∀ vfile ∈ table.vfiles, vfile.removed = false → vfile.file.id ≠ i := by
      intro vfile hmem hlive hid
      have hparent := (htracked.live vfile hmem hlive).1
      rw [hid, hfree] at hparent
      simp at hparent
    simp only
    split
    next =>
      refine ⟨?_, ?_, htracked.inside⟩
      · intro vfile hmem hlive
        rw [references_update, if_neg (helsewhere vfile hmem hlive)]
        exact htracked.live vfile hmem hlive
      · intro vfile hmem hremoved
        rw [references_update]
        split
        · exact byteLimit_zeroPartent
        · exact htracked.gone vfile hmem hremoved
    next hstatus =>
      rw [not_not] at hstatus
      refine ⟨?_, ?_, ?_⟩
      · intro vfile hmem hlive
        rw [references_update]
        rcases List.mem_append.mp hmem with hold | hnew
        · rw [if_neg (helsewhere vfile hold hlive)]
          exact htracked.live vfile hold hlive
        · obtain ⟨hid, hdisk, -, hpartent⟩ := mem_newVfiles hnew
          rw [if_pos hid, partitions_recordPartitions, hpartent, hdisk]
          exact ⟨rfl, rfl⟩
      · intro vfile hmem hremoved
        rw [references_update]
        rcases List.mem_append.mp hmem with hold | hnew
        · split
          next hid =>
            rw [partitions_recordPartitions]
            cases hentry : (detectPartitions mbr).partitions[vfile.file.slot]? with
            | some partent => exact hok i hslot hstatus vfile hold hid partent hentry
            | none =>
                have hgone := htracked.gone vfile hold hremoved
                rw [hid] at hgone
                exact hgone
          next => exact htracked.gone vfile hold hremoved
        · have hlive := (mem_newVfiles hnew).2.2.1
          rw [hremoved] at hlive
          simp at hlive
      · intro vfile hmem
        rcases List.mem_append.mp hmem with hold | hnew
        · exact htracked.inside vfile hold
        · rw [(mem_newVfiles hnew).1]
          exact hi

theorem deviceRemove_eq_some {table next : Table} {file : Option Disk}
    (hstep : deviceRemove table file = some next) :
    next.vfiles = markRemoved file table.vfiles ∧
      ((table.slotOf file = none ∧ next.slots = table.slots) ∨
        ∃ i, table.slotOf file = some i ∧
          next.slots = Function.update table.slots i zeroSlot) := by
  unfold deviceRemove at hstep
  split at hstep
  next hslot =>
    obtain rfl := Option.some.inj hstep
    exact ⟨rfl, Or.inl ⟨hslot, rfl⟩⟩
  next i hslot =>
    split at hstep
    next => simp at hstep
    next =>
      obtain rfl := Option.some.inj hstep
      exact ⟨rfl, Or.inr ⟨i, hslot, rfl⟩⟩

theorem Tracked.deviceRemove {table next : Table} (htracked : Tracked table)
    {file : Option Disk} (hok : Unaliased table (.remove file))
    (hstep : Partition.deviceRemove table file = some next) : Tracked next := by
  obtain ⟨hvfiles, hslots⟩ := deviceRemove_eq_some hstep
  -- what became of an entry: it is as before, or it was cleared with its slot
  have hentry : ∀ j, (next.references j = table.references j ∧
      (table.slotOf file = some j → False)) ∨
      (table.slotOf file = some j ∧ next.references j = zeroSlot.pref) := by
    intro j
    rcases hslots with ⟨hnone, hsame⟩ | ⟨i, hslot, hupdate⟩
    · refine Or.inl ⟨by rw [Table.references, hsame, Table.references], ?_⟩
      intro hsome
      rw [hnone] at hsome
      simp at hsome
    · by_cases hj : j = i
      · subst hj
        exact Or.inr ⟨hslot, by simp [Table.references, hupdate]⟩
      · refine Or.inl ⟨by simp [Table.references, hupdate, hj], ?_⟩
        intro hsome
        rw [hslot] at hsome
        exact hj (Option.some.inj hsome).symm
  refine ⟨?_, ?_, ?_⟩
  · intro vfile hmem hlive
    rw [hvfiles] at hmem
    obtain ⟨old, hold, hfile, hdisk, hpartent, hremoved⟩ := mem_markRemoved hmem
    rw [hfile, hdisk, hpartent]
    have hnot : ¬ (old.removed = true ∨ file = some old.disk) := by
      rw [← hremoved, hlive]
      simp
    rw [not_or, Bool.not_eq_true] at hnot
    obtain ⟨hparent, hold'⟩ := htracked.live old hold hnot.1
    rcases hentry old.file.id with ⟨hsame, -⟩ | ⟨hslot, -⟩
    · rw [hsame]
      exact ⟨hparent, hold'⟩
    · rw [(slotOf_eq_some hslot).2] at hparent
      exact absurd hparent hnot.2
  · intro vfile hmem hgone
    rw [hvfiles] at hmem
    obtain ⟨old, hold, hfile, hdisk, hpartent, hremoved⟩ := mem_markRemoved hmem
    rw [hfile]
    rcases hentry old.file.id with ⟨hsame, hother⟩ | ⟨-, hzero⟩
    · rw [hsame]
      cases hlive : old.removed with
      | true => exact htracked.gone old hold hlive
      | false =>
          obtain ⟨hparent, hpartent'⟩ := htracked.live old hold hlive
          have hremove : file = some old.disk := by
            rcases hremoved.mp hgone with h | h
            · rw [hlive] at h
              simp at h
            · exact h
          rw [hpartent']
          cases hslot : table.slotOf file with
          | none =>
              have hnone := slotOf_eq_none hslot (htracked.inside old hold)
              exact absurd (hparent.trans hremove.symm) hnone
          | some i =>
              refine hok i hslot old hold hremove hlive ?_
              rintro rfl
              exact hother hslot
    · rw [hzero]
      exact byteLimit_zeroPartent
  · intro vfile hmem
    rw [hvfiles] at hmem
    obtain ⟨old, hold, hfile, -⟩ := mem_markRemoved hmem
    rw [hfile]
    exact htracked.inside old hold

theorem Tracked.step {table next : Table} {event : DeviceEvent} (htracked : Tracked table)
    (hok : Unaliased table event) (hstep : table.step event = some next) : Tracked next := by
  cases event with
  | add file mbr =>
      obtain rfl := Option.some.inj hstep
      exact htracked.deviceAdd hok
  | remove file => exact htracked.deviceRemove hok hstep

/-- A disk that fills the entry of an old file is reached through it. -/
theorem Tracked.add_unaliased {table : Table} (htracked : Tracked table) {disk : Disk}
    {mbr : Mbr} (hstays : StaysWithDisk (Partition.deviceAdd table (some disk) mbr)) :
    Unaliased table (.add (some disk) mbr) := by
  intro i hslot hstatus vfile hmem hid partent hentry
  have hfree := (slotOf_eq_some hslot).2
  have hremoved : vfile.removed = true := by
    by_contra hlive
    have hparent := (htracked.live vfile hmem (by simpa using hlive)).1
    rw [hid, hfree] at hparent
    simp at hparent
  have hstatus' : ¬ (detectPartitions mbr).status ≠ 0 := not_not.mpr hstatus
  simp only [Partition.deviceAdd, hslot, if_neg hstatus'] at hstays
  have hrejected := (hstays vfile (List.mem_append_left _ hmem) .read 0 1 (by decide)).1 hremoved
  have hparent : ((⟨Function.update table.slots i
      (recordPartitions ⟨{ (table.slots i).pref with parent := some disk }, (table.slots i).file⟩
        table.vfiles.length (detectPartitions mbr).partitions),
      table.vfiles ++ newVfiles i disk (detectPartitions mbr).partitions⟩ : Table).references
        vfile.file.id).parent = some disk := by
    rw [references_update, if_pos hid]
    rfl
  have hlimit := byteLimit_eq_zero hparent hrejected
  rwa [references_update, if_pos hid, partitions_recordPartitions, hentry] at hlimit

/-- A removed disk that is still in a further slot is reached through its
files there. -/
theorem Tracked.remove_unaliased {table next : Table} (htracked : Tracked table)
    {file : Option Disk} (hstep : Partition.deviceRemove table file = some next)
    (hstays : StaysWithDisk next) : Unaliased table (.remove file) := by
  intro i hslot vfile hmem hfile hlive hid
  obtain ⟨hvfiles, ⟨hnone, -⟩ | ⟨i', hslot', hslots⟩⟩ := deviceRemove_eq_some hstep
  · rw [hslot] at hnone
    simp at hnone
  · obtain rfl : i = i' := Option.some.inj (hslot.symm.trans hslot')
    obtain ⟨hparent, hpartent⟩ := htracked.live vfile hmem hlive
    have hmarked : { vfile with removed := true } ∈ next.vfiles := by
      rw [hvfiles]
      exact List.mem_map.mpr ⟨vfile, hmem, by simp [hfile]⟩
    have hsame : next.references vfile.file.id = table.references vfile.file.id := by
      simp [Table.references, hslots, hid]
    have hrejected := (hstays _ hmarked .read 0 1 (by decide)).1 rfl
    have hlimit := byteLimit_eq_zero (by rw [hsame]; exact hparent) hrejected
    rwa [hsame, hpartent] at hlimit

/-- Partition files stay with their disks in every state of a run exactly if no
event of the run makes one point to another disk. -/
theorem staysWithDisk_iff (memory : ℕ → Slot) {events : List DeviceEvent} {final : Table}
    (hrun : exec Table.step (Table.init memory) events = some final) :
    (∀ n reached, exec Table.step (Table.init memory) (events.take n) = some reached →
      StaysWithDisk reached) ↔
    Meets Table.step Unaliased (Table.init memory) events := by
  have hgood : ∀ table, Tracked table → StaysWithDisk table := fun _ htracked => htracked.stays
  refine (meets_iff_forall_good hgood ?_ ?_ (tracked_init memory)
    (meets_of_forall (fun _ _ => trivial) _ _) hrun).symm
  · intro table event next htracked _ hok hstep
    exact htracked.step hok hstep
  · intro table event next htracked _ hstep hstays
    cases event with
    | add file mbr =>
        obtain rfl := Option.some.inj hstep
        cases file with
        | none => trivial
        | some disk => exact htracked.add_unaliased hstays
    | remove file => exact htracked.remove_unaliased hstep hstays

/-- One disk is added, removed and followed by another. -/
def swapDisks : List DeviceEvent :=
  [.add (some ⟨1, 512⟩) sampleMbr, .remove (some ⟨1, 512⟩), .add (some ⟨2, 512⟩) sampleMbr]

/-- The first disk alone. -/
theorem staysWithDisk_first :
    (∀ n reached, exec Table.step (Table.init fun _ => zeroSlot) ((swapDisks.take 1).take n) =
        some reached → StaysWithDisk reached) ↔
      Meets Table.step Unaliased (Table.init fun _ => zeroSlot) (swapDisks.take 1) := by
  exact staysWithDisk_iff (fun _ => zeroSlot) rfl

/-- The file of the first disk reads the second one. -/
theorem staysWithDisk_swap :
    ¬ ∀ (memory : ℕ → Slot) (events : List DeviceEvent) (final : Table),
      exec Table.step (Table.init memory) events = some final → StaysWithDisk final := by
  intro hall
  have hrun : (exec Table.step (Table.init fun _ => zeroSlot) swapDisks).map
      (fun table => (table.vfiles.head?,
        accessPart .read table.references (some ⟨0, 0⟩) true 0 512)) =
      some (some ⟨⟨0, 0⟩, ⟨1, 512⟩, ⟨2048, 2048⟩, true⟩,
        .call .read ⟨2, 512⟩ 1048576 512) := by
    decide +kernel
  obtain ⟨final, hfinal, hvalues⟩ := Option.map_eq_some_iff.mp hrun
  obtain ⟨hhead, haccess⟩ := Prod.mk.inj hvalues
  have hrejected := (hall _ swapDisks final hfinal _ (List.mem_of_mem_head? hhead) .read 0 512
    (by decide)).1 rfl
  rw [haccess] at hrejected
  simp at hrejected

/-! ## Clean memory -/

/-- The entries behind the four of a boot record have no file, and every file of
the table was made by it. -/
def Clean (table : Table) : Prop :=
  ∀ i j vfile, (table.slots i).file j = some vfile → j < 4 ∧ vfile < table.vfiles.length

theorem length_partitions_le (mbr : Mbr) : (detectPartitions mbr).partitions.length ≤ 4 := by
  rw [detectPartitions]
  split
  · simp
  · simp only
    split
    · simp
    · split
      · simp
      · exact (List.length_filterMap_le _ _).trans (by simp)

theorem clearPartitions_isSome {slot : Slot} {vfileCount rounds j : ℕ}
    (hfiles : ∀ k vfile, slot.file k = some vfile → k < 4 ∧ vfile < vfileCount) (hj : j ≤ 4) :
    (clearPartitions slot vfileCount rounds j).isSome := by
  induction rounds generalizing slot j with
  | zero => rfl
  | succ rounds ih =>
      rw [clearPartitions, if_neg (by omega)]
      cases hfile : slot.file j with
      | none => rfl
      | some vfile =>
          obtain ⟨hlt, hvfile⟩ := hfiles j vfile hfile
          simp only [if_pos hvfile]
          refine ih ?_ (by omega)
          intro k other hother
          by_cases hk : k = j
          · simp [hk] at hother
          · simp only [Function.update_of_ne hk] at hother
            exact hfiles k other hother

theorem Clean.step {table : Table} (hclean : Clean table) (event : DeviceEvent) :
    ∃ next, table.step event = some next ∧ Clean next := by
  have hzero : ∀ i (vfiles : List PartitionVfile), table.vfiles.length ≤ vfiles.length →
      Clean ⟨Function.update table.slots i zeroSlot, vfiles⟩ := by
    intro i vfiles hlength i' j vfile hfile
    by_cases hi : i' = i
    · simp [hi, zeroSlot] at hfile
    · simp only [Function.update_of_ne hi] at hfile
      obtain ⟨hj, hvfile⟩ := hclean i' j vfile hfile
      exact ⟨hj, hvfile.trans_le hlength⟩
  cases event with
  | add file mbr =>
      refine ⟨_, rfl, ?_⟩
      unfold deviceAdd
      split
      next => exact hclean
      next => exact hclean
      next i disk hslot =>
        simp only
        split
        next => exact hzero i _ le_rfl
        next =>
          have hcount := length_partitions_le mbr
          intro i' j vfile hfile
          simp only [newVfiles, List.length_append, List.length_mapIdx]
          by_cases hi : i' = i
          · subst hi
            simp only [Function.update_self, recordPartitions] at hfile
            split at hfile
            next hj =>
              obtain rfl := Option.some.inj hfile
              exact ⟨by omega, by omega⟩
            next =>
              obtain ⟨hj, hvfile⟩ := hclean i' j vfile hfile
              exact ⟨hj, by omega⟩
          · simp only [Function.update_of_ne hi] at hfile
            obtain ⟨hj, hvfile⟩ := hclean i' j vfile hfile
            exact ⟨hj, by omega⟩
  | remove file =>
      have hlength : (markRemoved file table.vfiles).length = table.vfiles.length := by
        rw [markRemoved, List.length_map]
      simp only [Table.step, deviceRemove]
      cases hslot : table.slotOf file with
      | none =>
          refine ⟨_, rfl, ?_⟩
          intro i j vfile hfile
          rw [hlength]
          exact hclean i j vfile hfile
      | some i =>
          have hcleared : (clearPartitions (table.slots i) table.vfiles.length 128 0).isSome :=
            clearPartitions_isSome (hclean i) (Nat.zero_le 4)
          obtain ⟨slot, hclear⟩ := Option.isSome_iff_exists.mp hcleared
          simp only [hclear]
          exact ⟨_, rfl, hzero i _ hlength.ge⟩

/-- In memory whose entries have no file, every run has a result. -/
theorem exec_init_isSome {memory : ℕ → Slot} (hmemory : ∀ i j, (memory i).file j = none)
    (events : List DeviceEvent) :
    ∃ final, exec Table.step (Table.init memory) events = some final := by
  have hinit : Clean (Table.init memory) := by
    intro i j vfile hfile
    simp [Table.init, hmemory] at hfile
  have hprogress : ∀ table event, Clean table → True →
      ∃ next, Table.step table event = some next ∧ Clean next := by
    intro table event hclean _
    exact hclean.step event
  obtain ⟨final, hrun, -⟩ :=
    exec_total hprogress hinit (meets_of_forall (fun _ _ => trivial) _ events)
  exact ⟨final, hrun⟩

end KimisOS.Partition
