import KimisOS.Fat32.WriteRead

/-!
# Transfers of any length

`read_disk` and `write_disk` cut a transfer into chunks of whole pages that
`ata_read` and `ata_write` take, and pass the rest through a page of their own.
From an aligned offset both are exact.  In front of an unaligned one `read_disk`
subtracts the offset where the offset in the sector is meant.
-/

namespace KimisOS.Disk

open KimisOS.ByteStore
open KimisOS.Fat32 (toInt toInt_eq_iff)

/-! ## The transfers of the controller -/

/-- The bytes that a transfer of `count` bytes moves: whole pages. -/
def transferSize (count : ℕ) : ℕ := (count + 4095) / 4096 * 4096

/-- `ata_read` to the address `ptr`. -/
def ataRead (device mem : ℕ → UInt8) (ptr offset count : ℕ) : ℕ → UInt8 :=
  store mem ptr (load device (offset / 512 * 512)) (transferSize count)

/-- `ata_write` of these bytes. -/
def ataWrite (device bytes : ℕ → UInt8) (offset count : ℕ) : ℕ → UInt8 :=
  store device (offset / 512 * 512) bytes (transferSize count)

def minU32 (a b : ℕ) : ℕ := min (a % 2 ^ 32) (b % 2 ^ 32)

/-- A difference of 64-bit numbers. -/
def sub64 (a b : ℕ) : ℕ := (a + 2 ^ 64 - b) % 2 ^ 64

/-- The limits of one transfer with 28-bit and with 48-bit addresses. -/
def boundary (huge : Bool) : ℕ := if huge then 0x2000000 else 0x20000

/-- `to_read` and `to_write`: as much as one transfer takes, cut to whole pages if it is
more than one. -/
def chunkSize (huge : Bool) (remainingCount : ℕ) : ℕ :=
  let size := minU32 (boundary huge) remainingCount
  if size % 4096 ≠ 0 ∧ size > 4096 then size - size % 4096 else size

/-! ## The functions -/

section Functions

variable (huge : Bool) (offset count : ℕ)

/-- The caller's buffer, the end of what was read from the page of `read_disk`, and the
returned number. -/
structure ReadResult where
  buffer : ℕ → UInt8
  bounceRead : ℕ
  returned : ℤ

/-- The loop of `read_disk`; `none` when the fuel runs out.  `ptr` is the place in the
buffer from which the loop counts, and `fresh` what a new page holds. -/
def readLoop (device fresh : ℕ → UInt8) (ptr : ℕ) :
    ℕ → ℕ → (ℕ → UInt8) → ℕ → Option ReadResult
  | fuel, remainingCount, buffer, bounceRead =>
      if remainingCount > 0 then
        match fuel with
        | 0 => none
        | fuel + 1 =>
            let toRead := chunkSize huge remainingCount
            let progress := sub64 count remainingCount
            if toRead < 4096 then
              let bounce := ataRead device fresh 0 ((offset + progress) % 2 ^ 64) 4096
              readLoop device fresh ptr fuel (remainingCount - toRead)
                (store buffer (ptr + progress) bounce toRead) (max bounceRead toRead)
            else
              readLoop device fresh ptr fuel (remainingCount - toRead)
                (ataRead device buffer (ptr + progress) ((offset + progress) % 2 ^ 64) toRead)
                bounceRead
      else some ⟨buffer, bounceRead, toInt count⟩

/-- `read_disk`. -/
def readDisk (fuel : ℕ) (device fresh buffer : ℕ → UInt8) : Option ReadResult :=
  if count = 0 then some ⟨buffer, 0, 0⟩
  else if offset % 512 ≠ 0 then
    let bounce := ataRead device fresh 0 (offset / 512 * 512 % 2 ^ 32) 512
    let length := minU32 count (sub64 512 offset)
    let copied := store buffer 0 (load bounce (offset % 512)) length
    if count ≤ sub64 512 offset then some ⟨copied, offset % 512 + length, toInt count⟩
    else
      readLoop huge offset count device fresh (sub64 512 offset % 2 ^ 32) fuel
        ((count % 2 ^ 32 + 2 ^ 32 - (512 - offset % 512)) % 2 ^ 32) copied
        (offset % 512 + length)
  else readLoop huge offset count device fresh 0 fuel (count % 2 ^ 32) buffer 0

/-- The loop of `write_disk`. -/
def writeLoop (fresh bytes : ℕ → UInt8) (ptr : ℕ) :
    ℕ → ℕ → (ℕ → UInt8) → Option ((ℕ → UInt8) × ℤ)
  | fuel, remainingCount, device =>
      if remainingCount > 0 then
        match fuel with
        | 0 => none
        | fuel + 1 =>
            let toWrite := chunkSize huge remainingCount
            let progress := sub64 count remainingCount
            let place := (offset + progress) % 2 ^ 64
            if toWrite < 4096 then
              let bounce := ataRead device fresh 0 place 4096
              let bounce := store bounce 0 (load bytes (ptr + progress)) toWrite
              writeLoop fresh bytes ptr fuel (remainingCount - toWrite)
                (ataWrite device bounce place 4096)
            else
              writeLoop fresh bytes ptr fuel (remainingCount - toWrite)
                (ataWrite device (load bytes (ptr + progress)) place toWrite)
      else some (device, toInt count)

/-- `write_disk`. -/
def writeDisk (fuel : ℕ) (fresh bytes device : ℕ → UInt8) :
    Option ((ℕ → UInt8) × ℤ) :=
  if count = 0 then some (device, 0)
  else if offset % 512 ≠ 0 then
    let alignedOffset := offset / 512 * 512 % 2 ^ 32
    let bounce := ataRead device fresh 0 alignedOffset 512
    let bounce := store bounce (offset % 512) bytes (minU32 count (sub64 512 offset))
    let device := ataWrite device bounce alignedOffset 512
    if count ≤ sub64 512 offset then some (device, toInt count)
    else
      writeLoop huge offset count fresh bytes (sub64 512 offset % 2 ^ 32) fuel
        ((count % 2 ^ 32 + 2 ^ 32 - (512 - offset % 512)) % 2 ^ 32) device
  else writeLoop huge offset count fresh bytes 0 fuel (count % 2 ^ 32) device

end Functions

/-! ## One round -/

section Round

variable {huge : Bool} {offset count remaining : ℕ}

/-- A chunk is the rest of less than a page, or some whole pages. -/
theorem chunkSize_cases (hsome : 0 < remaining) (hword : remaining < 2 ^ 32) :
    (chunkSize huge remaining = remaining ∧ remaining < 4096) ∨
      (4096 ≤ chunkSize huge remaining ∧ chunkSize huge remaining ≤ remaining ∧
        chunkSize huge remaining % 4096 = 0) := by
  have hlimit : ∃ pages, 0 < pages ∧ boundary huge = 4096 * pages ∧
      boundary huge < 2 ^ 32 := by
    cases huge with
    | true => exact ⟨8192, by decide⟩
    | false => exact ⟨32, by decide⟩
  obtain ⟨pages, hpages, hboundary, hless⟩ := hlimit
  have hsize : minU32 (boundary huge) remaining = min (boundary huge) remaining := by
    rw [minU32, Nat.mod_eq_of_lt hless, Nat.mod_eq_of_lt hword]
  rw [chunkSize, hsize]
  split
  case isTrue hcut => omega
  case isFalse hwhole => omega

theorem sub64_eq {a b : ℕ} (hle : b ≤ a) (hword : a < 2 ^ 64) : sub64 a b = a - b := by
  rw [sub64]
  omega

theorem transferSize_eq {size : ℕ} (hpages : size % 4096 = 0) :
    transferSize size = size := by
  rw [transferSize]
  omega

/-- From an aligned place the controller moves the bytes there. -/
theorem ataRead_aligned {device mem : ℕ → UInt8} {ptr place size : ℕ}
    (haligned : place % 512 = 0) (hpages : size % 4096 = 0) :
    ataRead device mem ptr place size = store mem ptr (load device place) size := by
  rw [ataRead, transferSize_eq hpages, Nat.div_mul_cancel (Nat.dvd_of_mod_eq_zero haligned)]

theorem ataWrite_aligned {device bytes : ℕ → UInt8} {place size : ℕ}
    (haligned : place % 512 = 0) (hpages : size % 4096 = 0) :
    ataWrite device bytes place size = store device place bytes size := by
  rw [ataWrite, transferSize_eq hpages,
    Nat.div_mul_cancel (Nat.dvd_of_mod_eq_zero haligned)]

end Round

/-! ## The loops -/

section Loops

variable {huge : Bool} {offset count remaining progress ptr fuel : ℕ}
  {device fresh bytes buffer : ℕ → UInt8}

/-- Where a loop stands: some of the bytes are done, up to an aligned place. -/
structure Underway (offset count remaining progress : ℕ) : Prop where
  split : progress + remaining = count
  aligned : (offset + progress) % 512 = 0
  count_lt : count < 2 ^ 32
  offset_lt : offset + count < 2 ^ 64

theorem Underway.next (hunder : Underway offset count remaining progress)
    (hle : chunkSize huge remaining ≤ remaining)
    (hpages : chunkSize huge remaining % 4096 = 0) :
    Underway offset count (remaining - chunkSize huge remaining)
      (progress + chunkSize huge remaining) := by
  obtain ⟨hsplit, haligned, hcount, hoffset⟩ := hunder
  exact ⟨by omega, by omega, hcount, hoffset⟩

theorem Underway.progress_eq (hunder : Underway offset count remaining progress) :
    sub64 count remaining = progress ∧ (offset + progress) % 2 ^ 64 = offset + progress ∧
      remaining < 2 ^ 32 := by
  obtain ⟨hsplit, -, hcount, hoffset⟩ := hunder
  refine ⟨?_, Nat.mod_eq_of_lt (by omega), by omega⟩
  rw [sub64_eq (by omega) (by omega)]
  omega

theorem store_start {size k : ℕ} (hk : k < size) : store buffer 0 bytes size k = bytes k := by
  have hinside := @store_inside buffer 0 size bytes k hk
  rw [Nat.zero_add] at hinside
  exact hinside

/-- The page that is read for less than a page holds the bytes of the device. -/
theorem store_bounce {place size : ℕ} (hsize : size ≤ 4096) :
    store buffer ptr (store fresh 0 (load device place) 4096) size =
      store buffer ptr (load device place) size := by
  apply store_congr
  intro k hk
  exact store_start (by omega)

@[simp]
theorem readLoop_done (fuel bounceRead : ℕ) :
    readLoop huge offset count device fresh ptr fuel 0 buffer bounceRead =
      some ⟨buffer, bounceRead, toInt count⟩ := by
  cases fuel with
  | zero => rw [readLoop, if_neg (Nat.lt_irrefl 0)]
  | succ fuel => rw [readLoop, if_neg (Nat.lt_irrefl 0)]

@[simp]
theorem writeLoop_done (fuel : ℕ) :
    writeLoop huge offset count fresh bytes ptr fuel 0 device = some (device, toInt count) := by
  cases fuel with
  | zero => rw [writeLoop, if_neg (Nat.lt_irrefl 0)]
  | succ fuel => rw [writeLoop, if_neg (Nat.lt_irrefl 0)]

theorem readLoop_spec {bounceRead : ℕ} (hunder : Underway offset count remaining progress)
    (hfuel : remaining ≤ fuel) :
    ∃ reached, reached ≤ max bounceRead 4096 ∧
      readLoop huge offset count device fresh ptr fuel remaining buffer bounceRead =
        some ⟨store buffer (ptr + progress) (load device (offset + progress)) remaining,
          reached, toInt count⟩ := by
  induction fuel generalizing remaining progress buffer bounceRead with
  | zero =>
      obtain rfl : remaining = 0 := by omega
      rw [store_zero]
      exact ⟨bounceRead, le_max_left _ _, readLoop_done _ _⟩
  | succ fuel ih =>
      by_cases hsome : remaining > 0
      · obtain ⟨hprogress, hplace, hword⟩ := hunder.progress_eq
        rw [readLoop, if_pos hsome]
        dsimp only
        rw [hprogress, hplace]
        rcases @chunkSize_cases huge remaining hsome hword with
          ⟨hall, hless⟩ | ⟨hge, hle, hpages⟩
        · rw [hall, if_pos hless, ataRead_aligned hunder.aligned (by decide),
            store_bounce hless.le, Nat.sub_self]
          exact ⟨max bounceRead remaining, max_le_max le_rfl hless.le, readLoop_done _ _⟩
        · rw [if_neg (Nat.not_lt.mpr hge), ataRead_aligned hunder.aligned hpages]
          obtain ⟨reached, hreached, hrest⟩ := ih (hunder.next hle hpages) (by omega)
          refine ⟨reached, hreached, hrest.trans ?_⟩
          have hload : load device (offset + (progress + chunkSize huge remaining)) =
              load (load device (offset + progress)) (chunkSize huge remaining) := by
            funext k
            rw [load, load, load]
            congr 1
            omega
          rw [hload, ← Nat.add_assoc ptr, store_append, Nat.add_sub_cancel' hle]
      · obtain rfl : remaining = 0 := by omega
        rw [store_zero]
        exact ⟨bounceRead, le_max_left _ _, readLoop_done _ _⟩

/-- The page that is written for less than a page keeps what lies behind. -/
theorem write_bounce {place size : ℕ} (hsize : size ≤ 4096) :
    store device place
        (store (store fresh 0 (load device place) 4096) 0 bytes size) 4096 =
      store device place bytes size := by
  funext a
  by_cases hin : place ≤ a ∧ a < place + 4096
  · obtain ⟨k, rfl⟩ := Nat.exists_eq_add_of_le hin.1
    rw [store_inside (by omega)]
    by_cases hk : k < size
    · rw [store_start hk, store_inside hk]
    · rw [store_outside (by omega), store_start (by omega), load, store_outside (by omega)]
  · rw [store_outside (by omega), store_outside (by omega)]

theorem writeLoop_spec (hunder : Underway offset count remaining progress)
    (hfuel : remaining ≤ fuel) :
    writeLoop huge offset count fresh bytes ptr fuel remaining device =
      some (store device (offset + progress) (load bytes (ptr + progress)) remaining,
        toInt count) := by
  induction fuel generalizing remaining progress device with
  | zero =>
      obtain rfl : remaining = 0 := by omega
      rw [writeLoop_done, store_zero]
  | succ fuel ih =>
      by_cases hsome : remaining > 0
      · obtain ⟨hprogress, hplace, hword⟩ := hunder.progress_eq
        rw [writeLoop, if_pos hsome]
        dsimp only
        rw [hprogress, hplace]
        rcases @chunkSize_cases huge remaining hsome hword with
          ⟨hall, hless⟩ | ⟨hge, hle, hpages⟩
        · rw [hall, if_pos hless, ataRead_aligned hunder.aligned (by decide),
            ataWrite_aligned hunder.aligned (by decide), write_bounce hless.le, Nat.sub_self,
            writeLoop_done]
        · rw [if_neg (Nat.not_lt.mpr hge), ataWrite_aligned hunder.aligned hpages,
            ih (hunder.next hle hpages) (by omega)]
          have hload : load bytes (ptr + (progress + chunkSize huge remaining)) =
              load (load bytes (ptr + progress)) (chunkSize huge remaining) := by
            funext k
            rw [load, load, load]
            congr 1
            omega
          rw [hload, ← Nat.add_assoc offset, store_append, Nat.add_sub_cancel' hle]
      · obtain rfl : remaining = 0 := by omega
        rw [writeLoop_done, store_zero]

/-- The loop returns the count, however long it takes. -/
theorem writeLoop_returned {device' : ℕ → UInt8} {returned : ℤ}
    (hwrite : writeLoop huge offset count fresh bytes ptr fuel remaining device =
      some (device', returned)) : returned = toInt count := by
  induction fuel generalizing remaining device with
  | zero =>
      rw [writeLoop] at hwrite
      split at hwrite
      case isTrue => cases hwrite
      case isFalse => exact (Prod.mk.inj (Option.some.inj hwrite)).2.symm
  | succ fuel ih =>
      rw [writeLoop] at hwrite
      split at hwrite
      case isTrue =>
        dsimp only at hwrite
        split at hwrite
        case isTrue => exact ih hwrite
        case isFalse => exact ih hwrite
      case isFalse => exact (Prod.mk.inj (Option.some.inj hwrite)).2.symm

end Loops

/-! ## Aligned writes -/

/-- The write comes to an end, replaces the bytes of the range and no others, and
returns this number. -/
def WritesExactly (huge : Bool) (offset count : ℕ) (fresh bytes device : ℕ → UInt8)
    (returned : ℤ) : Prop :=
  ∃ fuel device', writeDisk huge offset count fuel fresh bytes device =
      some (device', returned) ∧
    (∀ k < count, device' (offset + k) = bytes k) ∧
    ∀ a, a < offset ∨ offset + count ≤ a → device' a = device a

theorem writeDisk_aligned {huge : Bool} {offset count : ℕ} {fresh bytes device : ℕ → UInt8}
    (haligned : offset % 512 = 0) (hsome : 1 ≤ count) (hmax : count ≤ 2 ^ 31)
    (hdevice : offset + count < 2 ^ 64) :
    writeDisk huge offset count count fresh bytes device =
      some (store device offset bytes count, toInt count) := by
  have hunder : Underway offset count count 0 :=
    ⟨Nat.zero_add count, haligned, by omega, hdevice⟩
  have hloop := @writeLoop_spec huge offset count count 0 0 count device fresh bytes hunder
    le_rfl
  have hbytes : load bytes (0 + 0) = bytes := by
    funext k
    rw [load, Nat.zero_add]
  rw [hbytes, Nat.add_zero] at hloop
  rw [writeDisk, if_neg (by omega), if_neg (not_not.mpr haligned),
    Nat.mod_eq_of_lt (show count < 2 ^ 32 by omega), hloop]

/-- From an aligned offset a write is exact; it returns the count as an `int`, so the
largest count is returned as a negative number. -/
theorem write_disk_exact (huge : Bool) (offset count : ℕ) (fresh bytes device : ℕ → UInt8)
    (haligned : offset % 512 = 0) (hsome : 1 ≤ count) (hmax : count ≤ 2 ^ 31)
    (hdevice : offset + count + 4096 ≤ 2 ^ 64) :
    WritesExactly huge offset count fresh bytes device
      (if count < 2 ^ 31 then (count : ℤ) else -2 ^ 31) := by
  have hreturned : toInt count = if count < 2 ^ 31 then (count : ℤ) else -2 ^ 31 := by
    split
    case isTrue hless => exact toInt_eq_iff.mpr hless
    case isFalse hfull =>
      obtain rfl : count = 2 ^ 31 := by omega
      decide
  refine ⟨count, store device offset bytes count, ?_, ?_, ?_⟩
  · rw [writeDisk_aligned haligned hsome hmax (by omega), hreturned]
  · intro k hk
    exact store_inside hk
  · intro a ha
    exact store_outside ha

theorem write_disk_exact_tail :
    WritesExactly false 512 5000 (fun _ => 9) (fun _ => 1) (fun _ => 0) 5000 :=
  write_disk_exact false 512 5000 (fun _ => 9) (fun _ => 1) (fun _ => 0) (by decide)
    (by decide) (by decide) (by decide)

/-- A write of 2 GiB does not return its count. -/
theorem write_disk_largest :
    ¬WritesExactly false 0 (2 ^ 31) (fun _ => 9) (fun _ => 1) (fun _ => 0) (2 ^ 31) := by
  rintro ⟨fuel, device', hwrite, -, -⟩
  rw [writeDisk, if_neg (by decide), if_neg (by decide)] at hwrite
  have hreturned := writeLoop_returned hwrite
  exact absurd hreturned (by decide)

/-! ## Reads -/

/-- The read comes to an end, fills the caller's buffer with the bytes of the range and
touches nothing behind it, stays in its own page, and returns the number of bytes. -/
def ReadsExactly (huge : Bool) (offset count : ℕ) (device : ℕ → UInt8) : Prop :=
  ∀ fresh buffer, ∃ fuel result, readDisk huge offset count fuel device fresh buffer =
      some result ∧
    (∀ k < count, result.buffer k = device (offset + k)) ∧
    (∀ k, count ≤ k → result.buffer k = buffer k) ∧
    result.bounceRead ≤ 4096 ∧ result.returned = count

/-- The offset is aligned; or the range ends in the first sector; or it ends in the page
that starts with the sector of the offset, and the sum is not far above 4 GiB. -/
def ReadFits (offset count : ℕ) : Prop :=
  count < 2147483648 ∧
    (offset % 512 = 0 ∨ (offset < 512 ∧ offset + count ≤ 512) ∨
      (512 < offset ∧ offset % 512 + count ≤ 4096 ∧ offset + count ≤ 2 ^ 32 + 512))

section Read

variable {huge : Bool} {offset count fuel : ℕ} {device fresh buffer : ℕ → UInt8}
  {result : ReadResult}

theorem readLoop_returned {ptr remaining bounceRead : ℕ}
    (hread : readLoop huge offset count device fresh ptr fuel remaining buffer bounceRead =
      some result) : result.returned = toInt count := by
  induction fuel generalizing remaining buffer bounceRead with
  | zero =>
      rw [readLoop] at hread
      split at hread
      case isTrue => cases hread
      case isFalse => rw [← Option.some.inj hread]
  | succ fuel ih =>
      rw [readLoop] at hread
      split at hread
      case isTrue =>
        dsimp only at hread
        split at hread
        case isTrue => exact ih hread
        case isFalse => exact ih hread
      case isFalse => rw [← Option.some.inj hread]

theorem readDisk_returned (hsome : 1 ≤ count)
    (hread : readDisk huge offset count fuel device fresh buffer = some result) :
    result.returned = toInt count := by
  rw [readDisk, if_neg (by omega)] at hread
  split at hread
  case isTrue =>
    dsimp only at hread
    split at hread
    case isTrue => rw [← Option.some.inj hread]
    case isFalse => exact readLoop_returned hread
  case isFalse => exact readLoop_returned hread

theorem readDisk_aligned (haligned : offset % 512 = 0) (hsome : 1 ≤ count)
    (hmax : count ≤ 2 ^ 31) (hoffset : offset < 2 ^ 32) :
    ∃ reached, reached ≤ 4096 ∧ readDisk huge offset count count device fresh buffer =
      some ⟨store buffer 0 (load device offset) count, reached, toInt count⟩ := by
  have hunder : Underway offset count count 0 :=
    ⟨Nat.zero_add count, haligned, by omega, by omega⟩
  obtain ⟨reached, hreached, hloop⟩ := @readLoop_spec huge offset count count 0 0 count
    device fresh buffer 0 hunder le_rfl
  refine ⟨reached, hreached.trans (max_le (by decide) le_rfl), ?_⟩
  rw [readDisk, if_neg (by omega), if_neg (not_not.mpr haligned),
    Nat.mod_eq_of_lt (show count < 2 ^ 32 by omega), hloop, Nat.add_zero, Nat.add_zero]

/-- More fuel changes nothing. -/
theorem readLoop_more {ptr remaining bounceRead : ℕ} (more : ℕ)
    (hread : readLoop huge offset count device fresh ptr fuel remaining buffer bounceRead =
      some result) :
    readLoop huge offset count device fresh ptr (fuel + more) remaining buffer bounceRead =
      some result := by
  induction fuel generalizing remaining buffer bounceRead with
  | zero =>
      rw [readLoop] at hread
      split at hread
      case isTrue => cases hread
      case isFalse hdone =>
        obtain rfl : remaining = 0 := by omega
        rw [readLoop_done, hread]
  | succ fuel ih =>
      rw [readLoop] at hread
      rw [show fuel + 1 + more = fuel + more + 1 by omega, readLoop]
      split at hread
      case isTrue hsome =>
        rw [if_pos hsome]
        dsimp only at hread ⊢
        split at hread
        case isTrue hless =>
          rw [if_pos hless]
          exact ih hread
        case isFalse hless =>
          rw [if_neg hless]
          exact ih hread
      case isFalse hdone => rw [if_neg hdone, hread]

/-- The page of an unaligned read. -/
def headPage (device fresh : ℕ → UInt8) (offset : ℕ) : ℕ → UInt8 :=
  load (store fresh 0 (load device (offset / 512 * 512)) 4096) (offset % 512)

theorem headPage_eq {k : ℕ} (hk : offset % 512 + k < 4096) :
    headPage device fresh offset k = device (offset + k) := by
  rw [headPage, load, store_start hk, load]
  congr 1
  omega

/-- A range behind the first sector is copied from the page of its first sector. -/
theorem readDisk_far (hunaligned : offset % 512 ≠ 0) (hsome : 1 ≤ count)
    (hmax : count ≤ 2 ^ 31) (hfar : 512 < offset) (hoffset : offset < 2 ^ 32) :
    readDisk huge offset count fuel device fresh buffer =
      some ⟨store buffer 0 (headPage device fresh offset) (min count (2 ^ 32 + 512 - offset)),
        offset % 512 + min count (2 ^ 32 + 512 - offset), toInt count⟩ := by
  have hdifference : sub64 512 offset = 2 ^ 64 + 512 - offset := by
    rw [sub64]
    omega
  have hlength : minU32 count (sub64 512 offset) = min count (2 ^ 32 + 512 - offset) := by
    rw [minU32, hdifference]
    omega
  have hplace : offset / 512 * 512 % 2 ^ 32 = offset / 512 * 512 :=
    Nat.mod_eq_of_lt (by omega)
  rw [readDisk, if_neg (by omega), if_pos hunaligned]
  dsimp only
  rw [hlength, hplace, if_pos (by rw [hdifference]; omega), ataRead,
    Nat.mul_div_cancel _ (by decide)]
  rfl

/-- A range in the first sector. -/
theorem readDisk_near (hunaligned : offset % 512 ≠ 0) (hsome : 1 ≤ count)
    (hnear : offset < 512) (hinside : offset + count ≤ 512) :
    readDisk huge offset count fuel device fresh buffer =
      some ⟨store buffer 0 (headPage device fresh offset) count, offset % 512 + count,
        toInt count⟩ := by
  have hdifference : sub64 512 offset = 512 - offset := sub64_eq hnear.le (by decide)
  have hlength : minU32 count (sub64 512 offset) = count := by
    rw [minU32, hdifference]
    omega
  have hplace : offset / 512 * 512 % 2 ^ 32 = offset / 512 * 512 :=
    Nat.mod_eq_of_lt (by omega)
  rw [readDisk, if_neg (by omega), if_pos hunaligned]
  dsimp only
  rw [hlength, hplace, if_pos (by rw [hdifference]; omega), ataRead,
    Nat.mul_div_cancel _ (by decide)]
  rfl

/-- A range that leaves the first sector goes on behind twice the bytes in that sector. -/
theorem readDisk_skips (hunaligned : offset % 512 ≠ 0) (hmax : count ≤ 2 ^ 31)
    (hnear : offset < 512) (hmore : 512 < offset + count)
    (hread : readDisk huge offset count fuel device fresh buffer = some result) :
    result.buffer = store
      (store buffer 0 (headPage device fresh offset) (512 - offset))
      (512 - offset + (512 - offset)) (load device 512) (count - (512 - offset)) := by
  have hdifference : sub64 512 offset = 512 - offset := sub64_eq hnear.le (by decide)
  have hlength : minU32 count (sub64 512 offset) = 512 - offset := by
    rw [minU32, hdifference]
    omega
  have hplace : offset / 512 * 512 % 2 ^ 32 = offset / 512 * 512 :=
    Nat.mod_eq_of_lt (by omega)
  have hrest : (count % 2 ^ 32 + 2 ^ 32 - (512 - offset % 512)) % 2 ^ 32 =
      count - (512 - offset) := by omega
  have hptr : sub64 512 offset % 2 ^ 32 = 512 - offset := by
    rw [hdifference]
    omega
  rw [readDisk, if_neg (by omega), if_pos hunaligned] at hread
  dsimp only at hread
  rw [hlength, hplace, if_neg (by rw [hdifference]; omega), hrest, hptr, ataRead,
    Nat.mul_div_cancel _ (by decide)] at hread
  have hunder : Underway offset count (count - (512 - offset)) (512 - offset) :=
    ⟨by omega, by omega, by omega, by omega⟩
  obtain ⟨reached, -, hloop⟩ := @readLoop_spec huge offset count (count - (512 - offset))
    (512 - offset) (512 - offset) (fuel + count) device fresh
    (store buffer 0 (headPage device fresh offset) (512 - offset))
    (offset % 512 + (512 - offset)) hunder (by omega)
  have hsame := (readLoop_more count hread).symm.trans hloop
  rw [Option.some.inj hsame, show offset + (512 - offset) = 512 by omega]

/-- No result can have the same byte behind two different buffers, if it is to be the
byte of the buffer. -/
theorem ReadsExactly.behind (hexact : ReadsExactly huge offset count device) {k : ℕ}
    (hk : count ≤ k) {byte : UInt8} :
    ¬∀ fuel result fresh buffer,
      readDisk huge offset count fuel device fresh buffer = some result →
        result.buffer k = byte := by
  intro hsame
  obtain ⟨fuel, result, hread, -, hkept, -⟩ := hexact (fun _ => 0) fun _ => 0
  obtain ⟨fuel', result', hread', -, hkept', -⟩ := hexact (fun _ => 0) fun _ => 1
  have hzero := (hkept k hk).symm.trans (hsame _ _ _ _ hread)
  have hone := (hkept' k hk).symm.trans (hsame _ _ _ _ hread')
  exact absurd (hzero.trans hone.symm) (by decide)

/-- Nor can it have the byte of the buffer, if it is to be the byte of the device. -/
theorem ReadsExactly.inside (hexact : ReadsExactly huge offset count device) {k : ℕ}
    (hk : k < count) :
    ¬∀ fuel result fresh buffer,
      readDisk huge offset count fuel device fresh buffer = some result →
        result.buffer k = buffer k := by
  intro hsame
  obtain ⟨fuel, result, hread, hbytes, -⟩ := hexact (fun _ => 0) fun _ => 0
  obtain ⟨fuel', result', hread', hbytes', -⟩ := hexact (fun _ => 0) fun _ => 1
  have hzero := (hsame _ _ _ _ hread).symm.trans (hbytes k hk)
  have hone := (hsame _ _ _ _ hread').symm.trans (hbytes' k hk)
  exact absurd (hzero.trans hone.symm) (by decide)

theorem ReadsExactly.fits (hexact : ReadsExactly huge offset count device)
    (hoffset : offset < 2 ^ 32) (hsome : 1 ≤ count) (hmax : count ≤ 2 ^ 31) :
    ReadFits offset count := by
  obtain ⟨fuel, result, hread, -, -, hpage, hreturned⟩ := hexact (fun _ => 0) fun _ => 0
  rw [readDisk_returned hsome hread] at hreturned
  refine ⟨toInt_eq_iff.mp hreturned, ?_⟩
  by_cases hunaligned : offset % 512 = 0
  · exact .inl hunaligned
  · right
    by_cases hnear : offset < 512
    · left
      refine ⟨hnear, ?_⟩
      by_contra hmore
      apply hexact.behind (show count ≤ 512 - offset + count - 1 by omega)
      intro fuel result fresh buffer hread
      rw [readDisk_skips hunaligned hmax hnear (by omega) hread,
        show 512 - offset + count - 1 =
          512 - offset + (512 - offset) + (count - 1 - (512 - offset)) by omega]
      exact store_inside (by omega)
    · right
      have hfar : 512 < offset := by omega
      by_cases hcut : count ≤ 2 ^ 32 + 512 - offset
      · rw [readDisk_far hunaligned hsome hmax hfar hoffset, min_eq_left hcut] at hread
        rw [← Option.some.inj hread] at hpage
        exact ⟨hfar, hpage, by omega⟩
      · exfalso
        apply hexact.inside (show 2 ^ 32 + 512 - offset < count by omega)
        intro fuel result fresh buffer hread
        rw [readDisk_far hunaligned hsome hmax hfar hoffset, min_eq_right (by omega)] at hread
        rw [← Option.some.inj hread]
        exact store_outside (by omega)

theorem ReadFits.exact (hfits : ReadFits offset count) (hoffset : offset < 2 ^ 32)
    (hsome : 1 ≤ count) : ReadsExactly huge offset count device := by
  obtain ⟨hint, hplace⟩ := hfits
  have hmax : count ≤ 2 ^ 31 := by omega
  have hreturned : toInt count = count := toInt_eq_iff.mpr hint
  intro fresh buffer
  by_cases hunaligned : offset % 512 = 0
  · obtain ⟨reached, hreached, hread⟩ := @readDisk_aligned huge offset count device fresh
      buffer hunaligned hsome hmax hoffset
    rw [hreturned] at hread
    refine ⟨count, _, hread, ?_, ?_, hreached, rfl⟩
    · intro k hk
      exact store_start hk
    · intro k hk
      exact store_outside (by omega)
  · obtain haligned | ⟨hnear, hinside⟩ | ⟨hfar, hpage, hword⟩ := hplace
    · exact absurd haligned hunaligned
    · have hread := @readDisk_near huge offset count 0 device fresh buffer hunaligned hsome
        hnear hinside
      rw [hreturned] at hread
      refine ⟨0, _, hread, ?_, ?_, ?_, rfl⟩
      · intro k hk
        exact (store_start hk).trans (headPage_eq (by omega))
      · intro k hk
        exact store_outside (by omega)
      · dsimp only
        omega
    · have hread := @readDisk_far huge offset count 0 device fresh buffer hunaligned hsome
        hmax hfar hoffset
      rw [hreturned, min_eq_left (by omega)] at hread
      refine ⟨0, _, hread, ?_, ?_, ?_, rfl⟩
      · intro k hk
        exact (store_start hk).trans (headPage_eq (by omega))
      · intro k hk
        exact store_outside (by omega)
      · dsimp only
        omega

end Read

/-- A read of a range is exact exactly if the range fits. -/
theorem read_disk_exact_iff (huge : Bool) (offset count : ℕ) (device : ℕ → UInt8)
    (hoffset : offset < 2 ^ 32) (hsome : 1 ≤ count) (hmax : count ≤ 2 ^ 31) :
    ReadsExactly huge offset count device ↔ ReadFits offset count :=
  ⟨fun hexact => hexact.fits hoffset hsome hmax, fun hfits => hfits.exact hoffset hsome⟩

theorem read_disk_exact_unaligned : ReadsExactly false 1000 600 fun a => UInt8.ofNat a :=
  (read_disk_exact_iff false 1000 600 (fun a => UInt8.ofNat a) (by decide) (by decide)
    (by decide)).mpr ⟨by decide, .inr (.inr ⟨by decide, by decide, by decide⟩)⟩

/-- A read from offset 100 leaves a gap in the buffer and goes on behind its end. -/
theorem read_disk_skips : ¬ReadsExactly false 100 1000 fun a => UInt8.ofNat a := by
  intro hexact
  obtain ⟨-, haligned | ⟨-, hinside⟩ | ⟨hfar, -⟩⟩ :=
    hexact.fits (by decide) (by decide) (by decide)
  · exact absurd haligned (by decide)
  · exact absurd hinside (by decide)
  · exact absurd hfar (by decide)

end KimisOS.Disk
