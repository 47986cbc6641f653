import KimisOS.Core.Run
import KimisOS.Core.Scatter
import KimisOS.Storage.DiskTransfer
import KimisOS.Storage.Prdt

/-!
# What the controller makes of a transfer

`ata_read` and `ata_write` write the sector and the number of sectors to the
registers of the drive, byte by byte, and leave the addresses of the buffer to the
table of the bus master.  With a table that is right the memory of the process is
then as if the transfer had gone to the buffer itself.
-/

namespace KimisOS.Disk

open KimisOS.Run
open KimisOS.ByteStore
open KimisOS.Prdt
open KimisOS.Scatter

/-! ## The registers of the drive -/

inductive Register where
  | driveHead
  | sectorCount
  | lbaLow
  | lbaMid
  | lbaHigh
  deriving DecidableEq

/-- Each register keeps the byte that was written to it before the last one. -/
structure TaskFile where
  current : Register → UInt8
  previous : Register → UInt8

/-- `outb` of the low byte of a number. -/
def TaskFile.outb (taskFile : TaskFile) (write : Register × ℕ) : TaskFile where
  current := Function.update taskFile.current write.1 (UInt8.ofNat write.2)
  previous := Function.update taskFile.previous write.1 (taskFile.current write.1)

/-- The drive of a transfer, with `flags.huge` and `flags.slave`. -/
structure DriveFlags where
  huge : Bool
  slave : Bool

/-- The writes of `ata_read` and `ata_write` in front of the command. -/
def DriveFlags.writes (flags : DriveFlags) (lba sectorCount : ℕ) : List (Register × ℕ) :=
  (.driveHead, 0x40 ||| flags.slave.toNat <<< 4 ||| (lba >>> 24 &&& 0x0f)) ::
    if flags.huge then
      [(.sectorCount, sectorCount >>> 8), (.lbaLow, lba >>> 24 &&& 0xff),
        (.lbaMid, lba >>> 32 &&& 0xff), (.lbaHigh, lba >>> 40 &&& 0xff),
        (.sectorCount, sectorCount &&& 0xff), (.lbaLow, lba &&& 0xff),
        (.lbaMid, lba >>> 8 &&& 0xff), (.lbaHigh, lba >>> 16 &&& 0xff)]
    else
      [(.sectorCount, sectorCount), (.lbaLow, lba &&& 0xff), (.lbaMid, lba >>> 8 &&& 0xff),
        (.lbaHigh, lba >>> 16 &&& 0xff)]

/-- What `READ_DMA` and `WRITE_DMA` take from the registers. -/
def TaskFile.sectors28 (taskFile : TaskFile) : ℕ × ℕ :=
  let count := (taskFile.current .sectorCount).toNat
  ((taskFile.current .lbaLow).toNat + 2 ^ 8 * (taskFile.current .lbaMid).toNat +
      2 ^ 16 * (taskFile.current .lbaHigh).toNat +
      2 ^ 24 * ((taskFile.current .driveHead).toNat % 16),
    if count = 0 then 0x100 else count)

/-- What `READ_DMA_EXT` and `WRITE_DMA_EXT` take from the registers. -/
def TaskFile.sectors48 (taskFile : TaskFile) : ℕ × ℕ :=
  let count := (taskFile.current .sectorCount).toNat +
    2 ^ 8 * (taskFile.previous .sectorCount).toNat
  ((taskFile.current .lbaLow).toNat + 2 ^ 8 * (taskFile.current .lbaMid).toNat +
      2 ^ 16 * (taskFile.current .lbaHigh).toNat + 2 ^ 24 * (taskFile.previous .lbaLow).toNat +
      2 ^ 32 * (taskFile.previous .lbaMid).toNat + 2 ^ 40 * (taskFile.previous .lbaHigh).toNat,
    if count = 0 then 0x10000 else count)

def TaskFile.sectors (taskFile : TaskFile) (flags : DriveFlags) : ℕ × ℕ :=
  if flags.huge then taskFile.sectors48 else taskFile.sectors28

/-! ## The bus master -/

/-- The addresses of a table; the bus master counts in the lower half of an address. -/
def prdAddresses (prdt : List Prd) : List ℕ :=
  (upToEnd prdt).flatMap fun entry => (List.range entry.length).map fun k =>
    entry.address / 0x10000 * 0x10000 + (entry.address + k) % 0x10000

/-- The physical memory, the bytes of the drive, and its registers. -/
structure Controller where
  phys : ℕ → UInt8
  device : ℕ → UInt8
  taskFile : TaskFile

def Controller.program (controller : Controller) (flags : DriveFlags) (offset count : ℕ) :
    Controller :=
  { controller with
    taskFile := (flags.writes (offset >>> 9) (pageCount count * 8 % 2 ^ 32)).foldl
      TaskFile.outb controller.taskFile }

/-- The sectors go to the addresses of the table. -/
def Controller.readDma (controller : Controller) (flags : DriveFlags) (prdt : List Prd) :
    Controller :=
  let (lba, count) := controller.taskFile.sectors flags
  { controller with
    phys := scatter controller.phys ((prdAddresses prdt).take (512 * count))
      (load controller.device (512 * lba)) }

/-- The sectors come from the addresses of the table. -/
def Controller.writeDma (controller : Controller) (flags : DriveFlags) (prdt : List Prd) :
    Controller :=
  let (lba, count) := controller.taskFile.sectors flags
  { controller with
    device := store controller.device (512 * lba)
      (gather controller.phys (prdAddresses prdt) 0)
      (min (512 * count) (prdAddresses prdt).length) }

/-- `ata_read`; `none` stands for its `-1`. -/
def Controller.ataRead (controller : Controller) (flags : DriveFlags)
    (frames : ℕ → Fin (2 ^ 20)) (ptr offset count : ℕ) : Option Controller :=
  (ataReadPrdt frames ptr count).map fun prdt =>
    (controller.program flags offset count).readDma flags prdt

/-- `ata_write`; `none` stands for its `-1`. -/
def Controller.ataWrite (controller : Controller) (flags : DriveFlags)
    (frames : ℕ → Fin (2 ^ 20)) (ptr offset count : ℕ) : Option Controller :=
  (ataWritePrdt frames ptr count).map fun prdt =>
    (controller.program flags offset count).writeDma flags prdt

/-! ## The registers hold the request -/

section Registers

variable {flags : DriveFlags} {taskFile : TaskFile} {lba sectorCount : ℕ}

theorem toNat_ofNat_and_ff (n : ℕ) : (UInt8.ofNat (n &&& 0xff)).toNat = n % 2 ^ 8 := by
  rw [UInt8.toNat_ofNat', show 0xff = 2 ^ 8 - 1 from rfl, Nat.and_two_pow_sub_one_eq_mod,
    Nat.mod_mod]

/-- The drive head register carries four bits of the address. -/
theorem driveHead_mod (slave : Bool) (n : ℕ) :
    (UInt8.ofNat (0x40 ||| slave.toNat <<< 4 ||| (n &&& 0x0f))).toNat % 16 = n % 2 ^ 4 := by
  rw [UInt8.toNat_ofNat', show 0x0f = 2 ^ 4 - 1 from rfl, Nat.and_two_pow_sub_one_eq_mod]
  have hmod : ∀ m, m % 2 ^ 8 % 16 = m % 2 ^ 4 := by
    intro m
    omega
  rw [hmod, Nat.or_mod_two_pow, Nat.or_mod_two_pow, Nat.mod_mod]
  cases slave
  · simp
  · simp

/-- A count whose bytes are zero stands for the largest one. -/
theorem count_of_mod {size : ℕ} (hpos : 0 < sectorCount) (hcount : sectorCount ≤ size) :
    (if sectorCount % size = 0 then size else sectorCount % size) = sectorCount := by
  obtain rfl | hless := hcount.eq_or_lt
  · rw [Nat.mod_self, if_pos rfl]
  · rw [Nat.mod_eq_of_lt hless, if_neg hpos.ne']

theorem sectors28_program (hflags : flags.huge = false) (hlba : lba < 2 ^ 28)
    (hpos : 0 < sectorCount) (hcount : sectorCount ≤ 0x100) :
    ((flags.writes lba sectorCount).foldl TaskFile.outb taskFile).sectors28 =
      (lba, sectorCount) := by
  rw [DriveFlags.writes, hflags]
  have hhead := driveHead_mod flags.slave (lba >>> 24)
  generalize hfinal : List.foldl _ _ _ = final
  have hcurrent : (final.current .sectorCount).toNat = sectorCount % 0x100 ∧
      (final.current .lbaLow).toNat = lba % 2 ^ 8 ∧
      (final.current .lbaMid).toNat = (lba >>> 8) % 2 ^ 8 ∧
      (final.current .lbaHigh).toNat = (lba >>> 16) % 2 ^ 8 ∧
      (final.current .driveHead).toNat % 16 = (lba >>> 24) % 2 ^ 4 := by
    rw [← hfinal]
    exact ⟨UInt8.toNat_ofNat', toNat_ofNat_and_ff lba, toNat_ofNat_and_ff _,
      toNat_ofNat_and_ff _, hhead⟩
  obtain ⟨hsectors, hlow, hmid, hhigh, hdrive⟩ := hcurrent
  rw [TaskFile.sectors28, hsectors, hlow, hmid, hhigh, hdrive, Nat.shiftRight_eq_div_pow,
    Nat.shiftRight_eq_div_pow, Nat.shiftRight_eq_div_pow, count_of_mod hpos hcount]
  congr 1
  omega

theorem sectors48_program (hflags : flags.huge = true) (hlba : lba < 2 ^ 48)
    (hpos : 0 < sectorCount) (hcount : sectorCount ≤ 0x10000) :
    ((flags.writes lba sectorCount).foldl TaskFile.outb taskFile).sectors48 =
      (lba, sectorCount) := by
  rw [DriveFlags.writes, hflags]
  generalize hfinal : List.foldl _ _ _ = final
  have hcurrent : (final.current .sectorCount).toNat = sectorCount % 2 ^ 8 ∧
      (final.current .lbaLow).toNat = lba % 2 ^ 8 ∧
      (final.current .lbaMid).toNat = (lba >>> 8) % 2 ^ 8 ∧
      (final.current .lbaHigh).toNat = (lba >>> 16) % 2 ^ 8 := by
    rw [← hfinal]
    exact ⟨toNat_ofNat_and_ff _, toNat_ofNat_and_ff _, toNat_ofNat_and_ff _,
      toNat_ofNat_and_ff _⟩
  have hprevious : (final.previous .sectorCount).toNat = (sectorCount >>> 8) % 2 ^ 8 ∧
      (final.previous .lbaLow).toNat = (lba >>> 24) % 2 ^ 8 ∧
      (final.previous .lbaMid).toNat = (lba >>> 32) % 2 ^ 8 ∧
      (final.previous .lbaHigh).toNat = (lba >>> 40) % 2 ^ 8 := by
    rw [← hfinal]
    exact ⟨UInt8.toNat_ofNat', toNat_ofNat_and_ff _, toNat_ofNat_and_ff _,
      toNat_ofNat_and_ff _⟩
  obtain ⟨hsectors, hlow, hmid, hhigh⟩ := hcurrent
  obtain ⟨hsectors', hlow', hmid', hhigh'⟩ := hprevious
  have hbytes : sectorCount % 2 ^ 8 + 2 ^ 8 * ((sectorCount >>> 8) % 2 ^ 8) =
      sectorCount % 0x10000 := by
    rw [Nat.shiftRight_eq_div_pow]
    omega
  rw [TaskFile.sectors48, hsectors, hsectors', hlow, hmid, hhigh, hlow', hmid', hhigh', hbytes,
    count_of_mod hpos hcount]
  congr 1
  simp only [Nat.shiftRight_eq_div_pow]
  omega

/-- The drive moves the sectors of the request. -/
theorem sectors_program (hlba : lba < if flags.huge then 2 ^ 48 else 2 ^ 28)
    (hpos : 0 < sectorCount) (hcount : sectorCount ≤ if flags.huge then 0x10000 else 0x100) :
    ((flags.writes lba sectorCount).foldl TaskFile.outb taskFile).sectors flags =
      (lba, sectorCount) := by
  rw [TaskFile.sectors]
  cases hflags : flags.huge with
  | false =>
      rw [hflags] at hlba hcount
      exact sectors28_program hflags hlba hpos hcount
  | true =>
      rw [hflags] at hlba hcount
      exact sectors48_program hflags hlba hpos hcount

end Registers

/-! ## The table lists the buffer -/

section Table

variable {frames : ℕ → Fin (2 ^ 20)} {ptr count : ℕ} {prdt : List Prd} {phys : ℕ → UInt8}

/-- Every run of pages of the buffer is one for which the loop makes right entries, and
the buffer does not pass the end of the address space. -/
structure BufferLaid (frames : ℕ → Fin (2 ^ 20)) (ptr count : ℕ) : Prop where
  runs : ∀ i ccount, RunFrom frames ptr ((count + 4095) / 4096) 0 i →
    IsRun frames ptr ((count + 4095) / 4096) i ccount →
      RunOk frames ptr ((count + 4095) / 4096) i ccount
  inside : ptr + transferSize count ≤ 2 ^ 32

/-- The table of a transfer of up to 32 MiB. -/
theorem BufferLaid.describes (hlaid : BufferLaid frames ptr count) (hcount : 1 ≤ count)
    (hmax : count ≤ 0x2000000) :
    ∃ prdt, ataPrdt frames ptr count = some prdt ∧
      Describes frames ptr ((count + 4095) / 4096) prdt := by
  have hpages : pageCount count = (count + 4095) / 4096 := by
    unfold pageCount
    omega
  have hflag : BoundaryFlag frames ptr 0 0 := by
    refine iff_of_false (fun hne => hne rfl) ?_
    rintro ⟨k, hk, hle, -⟩
    omega
  refine ⟨_, ?_, describes_iff_tableOk.mpr ((tableOk_prdtFrom_iff (by omega)
    (Nat.sub_le _ _) hflag).mpr hlaid.runs)⟩
  rw [ataPrdt, hpages, if_neg (by omega), if_neg (by omega)]

/-- No entry passes a boundary, so that the bus master goes through its bytes. -/
theorem prdAddresses_eq {pages : ℕ} (hdescribes : Describes frames ptr pages prdt) :
    prdAddresses prdt = (List.range (4096 * pages)).map (physByte frames ptr) := by
  rw [← hdescribes.bytes, prdAddresses]
  apply List.flatMap_congr
  intro entry hentry
  rw [Prd.bytes]
  apply List.map_congr_left
  intro k hk
  have hinside := hdescribes.inside entry hentry
  have hlength := List.mem_range.mp hk
  omega

/-- The memory as the process sees it. -/
def view (frames : ℕ → Fin (2 ^ 20)) (phys : ℕ → UInt8) : ℕ → UInt8 := fun vaddr =>
  phys (getPaddr frames vaddr + vaddr % 4096)

theorem physByte_view (hlaid : BufferLaid frames ptr count) {j : ℕ}
    (hj : j < transferSize count) :
    physByte frames ptr j = getPaddr frames (ptr + j) + (ptr + j) % 4096 := by
  have hinside := hlaid.inside
  rw [physByte, Nat.mod_eq_of_lt (show ptr + j < 2 ^ 32 by omega)]

/-- No other address of the buffer has the byte of this one. -/
def Alone (frames : ℕ → Fin (2 ^ 20)) (ptr count vaddr : ℕ) : Prop :=
  ∀ other, ptr ≤ other → other < ptr + transferSize count →
    getPaddr frames other + other % 4096 = getPaddr frames vaddr + vaddr % 4096 →
      other = vaddr

/-- What the bus master scatters is a store in the buffer. -/
theorem view_scatter (hlaid : BufferLaid frames ptr count) {bytes : ℕ → UInt8} {vaddr : ℕ}
    (halone : Alone frames ptr count vaddr) :
    view frames (scatter phys ((List.range (transferSize count)).map (physByte frames ptr))
        bytes) vaddr = store (view frames phys) ptr bytes (transferSize count) vaddr := by
  have hat : ∀ j, ((List.range (transferSize count)).map (physByte frames ptr))[j]? =
      some (getPaddr frames vaddr + vaddr % 4096) → ptr + j = vaddr := by
    intro j hj
    rw [List.getElem?_map] at hj
    obtain ⟨i, hi, hbyte⟩ := Option.map_eq_some_iff.mp hj
    obtain ⟨hrange, hij⟩ := List.getElem?_eq_some_iff.mp hi
    rw [List.length_range] at hrange
    rw [List.getElem_range] at hij
    subst hij
    rw [physByte_view hlaid hrange] at hbyte
    exact halone _ (Nat.le_add_right _ _) (by omega) hbyte
  by_cases hin : ptr ≤ vaddr ∧ vaddr < ptr + transferSize count
  · obtain ⟨k, rfl⟩ := Nat.exists_eq_add_of_le hin.1
    have hk : k < transferSize count := by omega
    have hlisted : ((List.range (transferSize count)).map (physByte frames ptr))[k]? =
        some (getPaddr frames (ptr + k) + (ptr + k) % 4096) := by
      rw [List.getElem?_map, List.getElem?_range hk, Option.map_some, physByte_view hlaid hk]
    rw [view, scatter_once hlisted fun j hj => Nat.add_left_cancel (hat j hj), store_inside hk]
  · have hnot : getPaddr frames vaddr + vaddr % 4096 ∉
        (List.range (transferSize count)).map (physByte frames ptr) := by
      intro hmem
      obtain ⟨j, hj, hbyte⟩ := List.mem_map.mp hmem
      have hlt := List.mem_range.mp hj
      rw [physByte_view hlaid hlt] at hbyte
      have hsame := halone _ (Nat.le_add_right _ _) (by omega) hbyte
      omega
    rw [view, scatter_outside hnot, store_outside (by omega), view]

/-- What the bus master gathers is what the process has in the buffer. -/
theorem gather_view (hlaid : BufferLaid frames ptr count) {k : ℕ}
    (hk : k < transferSize count) :
    gather phys ((List.range (transferSize count)).map (physByte frames ptr)) 0 k =
      load (view frames phys) ptr k := by
  have hlisted : ((List.range (transferSize count)).map (physByte frames ptr))[k]? =
      some (getPaddr frames (ptr + k) + (ptr + k) % 4096) := by
    rw [List.getElem?_map, List.getElem?_range hk, Option.map_some, physByte_view hlaid hk]
  rw [gather_eq hlisted]
  rfl

end Table

/-! ## One transfer -/

section Access

variable {flags : DriveFlags} {frames : ℕ → Fin (2 ^ 20)} {ptr offset count : ℕ}
  {controller : Controller}

/-- The transfer is one that `read_disk` and `write_disk` ask for, of sectors that the
drive has addresses for. -/
structure Accessible (flags : DriveFlags) (offset count : ℕ) : Prop where
  filled : 1 ≤ count
  limit : count ≤ boundary flags.huge
  address : offset < if flags.huge then 2 ^ 57 else 2 ^ 37

theorem Accessible.program (haccess : Accessible flags offset count) :
    (controller.program flags offset count).taskFile.sectors flags =
      (offset / 512, (count + 4095) / 4096 * 8) := by
  obtain ⟨hsome, hmax, hoffset⟩ := haccess
  rw [Controller.program, Nat.shiftRight_eq_div_pow]
  cases hhuge : flags.huge with
  | false =>
      rw [hhuge, boundary] at hmax
      rw [hhuge] at hoffset
      rw [if_neg Bool.false_ne_true] at hmax hoffset
      have hsectors : pageCount count * 8 % 2 ^ 32 = (count + 4095) / 4096 * 8 := by
        unfold pageCount
        omega
      rw [hsectors]
      apply sectors_program
      · rw [hhuge, if_neg Bool.false_ne_true]
        omega
      · omega
      · rw [hhuge, if_neg Bool.false_ne_true]
        omega
  | true =>
      rw [hhuge, boundary] at hmax
      rw [hhuge] at hoffset
      rw [if_pos rfl] at hmax hoffset
      have hsectors : pageCount count * 8 % 2 ^ 32 = (count + 4095) / 4096 * 8 := by
        unfold pageCount
        omega
      rw [hsectors]
      apply sectors_program
      · rw [hhuge, if_pos rfl]
        omega
      · omega
      · rw [hhuge, if_pos rfl]
        omega

theorem Accessible.le_largest (haccess : Accessible flags offset count) : count ≤ 0x2000000 := by
  have hmax := haccess.limit
  rw [boundary] at hmax
  split at hmax
  · exact hmax
  · exact hmax.trans (by decide)

/-- `ata_read` is a store of the device's bytes in the buffer. -/
theorem Accessible.ataRead (haccess : Accessible flags offset count)
    (hlaid : BufferLaid frames ptr count) :
    ∃ final, controller.ataRead flags frames ptr offset count = some final ∧
      final.device = controller.device ∧
      ∀ vaddr, Alone frames ptr count vaddr → view frames final.phys vaddr =
        Disk.ataRead controller.device (view frames controller.phys) ptr offset count vaddr := by
  obtain ⟨prdt, htable, hdescribes⟩ := hlaid.describes haccess.filled haccess.le_largest
  have hsize : 512 * ((count + 4095) / 4096 * 8) = transferSize count := by
    rw [transferSize]
    ring
  have hpages : 4096 * ((count + 4095) / 4096) = transferSize count := Nat.mul_comm _ _
  refine ⟨(controller.program flags offset count).readDma flags prdt, ?_, rfl, ?_⟩
  · rw [Controller.ataRead, ataReadPrdt, htable, Option.map_some]
  · intro vaddr halone
    have hall : (((List.range (transferSize count)).map (physByte frames ptr)).take
        (transferSize count)) = (List.range (transferSize count)).map (physByte frames ptr) := by
      rw [List.take_of_length_le]
      rw [List.length_map, List.length_range]
    rw [Controller.readDma, haccess.program]
    dsimp only
    rw [prdAddresses_eq hdescribes, hsize, hpages, hall, view_scatter hlaid halone, Disk.ataRead,
      Nat.mul_comm 512]
    rfl

/-- `ata_write` is a store of the buffer's bytes on the device. -/
theorem Accessible.ataWrite (haccess : Accessible flags offset count)
    (hlaid : BufferLaid frames ptr count) :
    ∃ final, controller.ataWrite flags frames ptr offset count = some final ∧
      final.phys = controller.phys ∧
      final.device = Disk.ataWrite controller.device (load (view frames controller.phys) ptr)
        offset count := by
  obtain ⟨prdt, htable, hdescribes⟩ := hlaid.describes haccess.filled haccess.le_largest
  have hsize : 512 * ((count + 4095) / 4096 * 8) = transferSize count := by
    rw [transferSize]
    ring
  have hpages : 4096 * ((count + 4095) / 4096) = transferSize count := Nat.mul_comm _ _
  refine ⟨(controller.program flags offset count).writeDma flags prdt, ?_, rfl, ?_⟩
  · rw [Controller.ataWrite, ataWritePrdt, htable, Option.map_some]
  · rw [Controller.writeDma, haccess.program]
    dsimp only
    rw [prdAddresses_eq hdescribes, hsize, hpages, List.length_map, List.length_range, min_self,
      Disk.ataWrite, Nat.mul_comm 512]
    exact store_congr fun k hk => gather_view hlaid hk

end Access

/-! ## Runs of transfers -/

/-- A call of `ata_read` or `ata_write`. -/
structure Transfer where
  write : Bool
  ptr : ℕ
  offset : ℕ
  count : ℕ

def Controller.step (flags : DriveFlags) (frames : ℕ → Fin (2 ^ 20)) (controller : Controller)
    (transfer : Transfer) : Option Controller :=
  if transfer.write then
    controller.ataWrite flags frames transfer.ptr transfer.offset transfer.count
  else controller.ataRead flags frames transfer.ptr transfer.offset transfer.count

/-- What the process asks for: a copy between its own memory and the bytes of the device. -/
structure Copy where
  memory : ℕ → UInt8
  device : ℕ → UInt8

def Copy.next (copy : Copy) (transfer : Transfer) : Copy :=
  if transfer.write then
    { copy with
      device := Disk.ataWrite copy.device (load copy.memory transfer.ptr) transfer.offset
        transfer.count }
  else
    { copy with
      memory := Disk.ataRead copy.device copy.memory transfer.ptr transfer.offset
        transfer.count }

/-- The addresses of a process, each with a byte of its own. -/
structure Space (frames : ℕ → Fin (2 ^ 20)) where
  addresses : Set ℕ
  apart : ∀ vaddr ∈ addresses, ∀ other ∈ addresses,
    getPaddr frames other + other % 4096 = getPaddr frames vaddr + vaddr % 4096 → other = vaddr

/-- A transfer of a buffer in the space. -/
structure Asked (flags : DriveFlags) (frames : ℕ → Fin (2 ^ 20)) (space : Space frames)
    (transfer : Transfer) : Prop where
  accessible : Accessible flags transfer.offset transfer.count
  laid : BufferLaid frames transfer.ptr transfer.count
  buffer : ∀ vaddr, transfer.ptr ≤ vaddr →
    vaddr < transfer.ptr + transferSize transfer.count → vaddr ∈ space.addresses

/-- The controller has done what was asked for. -/
structure Copied (frames : ℕ → Fin (2 ^ 20)) (space : Space frames) (copy : Copy)
    (controller : Controller) : Prop where
  device : controller.device = copy.device
  memory : ∀ vaddr ∈ space.addresses, view frames controller.phys vaddr = copy.memory vaddr

section Runs

variable {flags : DriveFlags} {frames : ℕ → Fin (2 ^ 20)} {space : Space frames} {copy : Copy}
  {controller : Controller} {transfer : Transfer}

theorem Asked.alone (hasked : Asked flags frames space transfer) {vaddr : ℕ}
    (hvaddr : vaddr ∈ space.addresses) :
    Alone frames transfer.ptr transfer.count vaddr := fun other hlow hhigh hsame =>
  space.apart vaddr hvaddr other (hasked.buffer other hlow hhigh) hsame

theorem Copied.step (hcopied : Copied frames space copy controller)
    (hasked : Asked flags frames space transfer) :
    ∃ next, controller.step flags frames transfer = some next ∧
      Copied frames space (copy.next transfer) next := by
  cases hwrite : transfer.write with
  | true =>
      obtain ⟨next, hnext, hphys, hdevice⟩ := @Accessible.ataWrite flags frames _ _ _
        controller hasked.accessible hasked.laid
      refine ⟨next, by rw [Controller.step, if_pos hwrite, hnext], ?_, ?_⟩
      · rw [Copy.next, if_pos hwrite, hdevice, hcopied.device]
        apply store_congr
        intro k hk
        exact hcopied.memory _ (hasked.buffer _ (Nat.le_add_right _ _) (by omega))
      · intro vaddr hvaddr
        rw [Copy.next, if_pos hwrite, hphys]
        exact hcopied.memory vaddr hvaddr
  | false =>
      have hread : ¬transfer.write = true := by
        rw [hwrite]
        exact Bool.false_ne_true
      obtain ⟨next, hnext, hdevice, hview⟩ := @Accessible.ataRead flags frames _ _ _
        controller hasked.accessible hasked.laid
      refine ⟨next, by rw [Controller.step, if_neg hread, hnext], ?_, ?_⟩
      · rw [Copy.next, if_neg hread, hdevice, hcopied.device]
      · intro vaddr hvaddr
        rw [Copy.next, if_neg hread, hview vaddr (hasked.alone hvaddr), hcopied.device]
        dsimp only [Disk.ataRead, ByteStore.store]
        rw [hcopied.memory vaddr hvaddr]

theorem Copied.run {transfers : List Transfer} (hcopied : Copied frames space copy controller)
    (hasked : ∀ transfer ∈ transfers, Asked flags frames space transfer) :
    ∃ final, exec (Controller.step flags frames) controller transfers = some final ∧
      Copied frames space (transfers.foldl Copy.next copy) final := by
  induction transfers generalizing copy controller with
  | nil => exact ⟨controller, rfl, hcopied⟩
  | cons transfer transfers ih =>
      obtain ⟨next, hnext, hcopied'⟩ := hcopied.step (hasked transfer List.mem_cons_self)
      obtain ⟨final, hrun, hfinal⟩ := ih hcopied' fun other hother =>
        hasked other (List.mem_cons_of_mem _ hother)
      exact ⟨final, exec_cons_eq_some.mpr ⟨next, hnext, hrun⟩, hfinal⟩

end Runs

/-- Through the registers of the drive, the table and the bus master, a run of
transfers is a run of copies between the memory that the process sees and the device:
each moves its own sectors to or from its own buffer and nothing else changes. -/
theorem transfers_refine_copies (flags : DriveFlags) (frames : ℕ → Fin (2 ^ 20))
    (space : Space frames) (controller : Controller) (transfers : List Transfer)
    (hasked : ∀ transfer ∈ transfers, Asked flags frames space transfer) :
    ∃ final, exec (Controller.step flags frames) controller transfers = some final ∧
      Copied frames space
        (transfers.foldl Copy.next ⟨view frames controller.phys, controller.device⟩) final :=
  Copied.run ⟨rfl, fun _ _ => rfl⟩ hasked

/-! ## A page that goes to the disk and comes back -/

/-- A page that does not end a block of 64 KiB, and whose follower does not. -/
theorem identityPage_laid {page : ℕ} (hpage : page % 16 < 14) (hbound : page + 1 ≤ 2 ^ 20) :
    BufferLaid identityFrames (4096 * page) 4096 := by
  have hpaddr : ∀ k, k ≤ 1 →
      pagePaddr identityFrames (4096 * page) k % 0x10000 = 4096 * (page % 16 + k) := by
    intro k hk
    rw [pagePaddr, getPaddr, identityFrames, Fin.val_ofNat]
    omega
  have hrun : IsRun identityFrames (4096 * page) 1 0 1 := by
    refine ⟨Nat.one_pos, by decide, le_refl 1, ?_, .inr (.inl rfl)⟩
    intro k hk
    obtain rfl : k = 0 := by omega
    rw [Follows, Nat.zero_mul, Nat.add_zero, Nat.add_zero,
      Nat.mod_eq_of_lt (pagePaddr_lt identityFrames (4096 * page) 0)]
  refine ⟨?_, by rw [transferSize]; omega⟩
  intro i ccount hfrom hrun'
  cases hfrom with
  | refl =>
      rw [hrun'.unique hrun]
      refine ⟨iff_of_false ?_ ?_, fun hne => absurd (Nat.mul_mod_right 4096 page) hne,
        by decide⟩
      · rintro (hlast | ⟨k, hk, hle, hlast⟩)
        · rw [LastOfBlock, hpaddr 0 (by decide)] at hlast
          omega
        · rw [LastOfBlock, hpaddr k (by omega)] at hlast
          omega
      · rw [Crosses, hpaddr 0 (by decide)]
        omega
  | step hfirst hrest =>
      rw [hfirst.unique hrun] at hrest
      exact absurd hrun' (not_isRun_of_runFrom_end hrest)

/-- The first 16 pages of a process. -/
def identitySpace : Space identityFrames where
  addresses := {vaddr | vaddr < 0x10000}
  apart := by
    intro vaddr hvaddr other hother hsame
    have hlow : vaddr < 0x10000 := hvaddr
    have hlow' : other < 0x10000 := hother
    rw [getPaddr, getPaddr, identityFrames, Fin.val_ofNat, Fin.val_ofNat] at hsame
    omega

theorem transfers_refine_copies_page : ∃ final,
    exec (Controller.step ⟨false, false⟩ identityFrames)
      ⟨fun a => UInt8.ofNat a, fun _ => 0, ⟨fun _ => 0, fun _ => 0⟩⟩
      [⟨true, 0x1000, 512, 4096⟩, ⟨false, 0x3000, 512, 4096⟩] = some final ∧
    final.device 519 = 7 ∧ view identityFrames final.phys 0x3007 = 7 := by
  have hasked : ∀ transfer ∈ ([⟨true, 0x1000, 512, 4096⟩, ⟨false, 0x3000, 512, 4096⟩] :
      List Transfer), Asked ⟨false, false⟩ identityFrames identitySpace transfer := by
    intro transfer hmem
    obtain rfl | rfl := List.mem_pair.mp hmem
    · refine ⟨⟨by decide, by decide, by decide⟩,
        @identityPage_laid 1 (by decide) (by decide), ?_⟩
      intro vaddr _ hhigh
      exact hhigh.trans (by decide)
    · refine ⟨⟨by decide, by decide, by decide⟩,
        @identityPage_laid 3 (by decide) (by decide), ?_⟩
      intro vaddr _ hhigh
      exact hhigh.trans (by decide)
  obtain ⟨final, hrun, hcopied⟩ := transfers_refine_copies ⟨false, false⟩ identityFrames
    identitySpace ⟨fun a => UInt8.ofNat a, fun _ => 0, ⟨fun _ => 0, fun _ => 0⟩⟩ _ hasked
  refine ⟨final, hrun, ?_, ?_⟩
  · rw [hcopied.device]
    decide +kernel
  · rw [hcopied.memory 0x3007 (show 0x3007 < 0x10000 by decide)]
    decide +kernel

end KimisOS.Disk
