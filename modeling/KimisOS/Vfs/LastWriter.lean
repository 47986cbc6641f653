import KimisOS.Core.Run
import KimisOS.Vfs.RamData

/-!
# The last writer wins

A RAM file grows by a new block when its number of pages changes, and the bytes
that it has are copied there.  Whatever the pattern of the writes, a byte that was
written is the byte of the last write that covers it.
-/

namespace KimisOS.RamData

open KimisOS.ByteStore
open KimisOS.Run
open KimisOS.Vfs

/-- A buffer of that length that is not in the block of the file. -/
structure File.Buffer (file : File) (buffer count : ℕ) : Prop where
  notNull : buffer ≠ 0
  inMemory : buffer + count ≤ 2 ^ 32
  apart : Apart buffer count file.privatePtr file.blockLength

/-- A call of `ramfs_write`, with the memory it finds and the `kmalloc` it may
call. -/
structure WriteCall where
  mem : ℕ → UInt8
  buffer : ℕ
  offset : ℕ
  count : ℕ
  kmalloc : ℕ → ℕ

namespace WriteCall

/-- The end of the bytes it writes. -/
def bound (call : WriteCall) : ℕ := call.offset + call.count

def Covers (call : WriteCall) (position : ℕ) : Prop :=
  call.offset ≤ position ∧ position < call.bound

instance (call : WriteCall) (position : ℕ) : Decidable (call.Covers position) :=
  inferInstanceAs (Decidable (_ ∧ _))

/-- The byte it writes at a position that it covers. -/
def byteAt (call : WriteCall) (position : ℕ) : UInt8 :=
  call.mem (call.buffer + (position - call.offset))

/-- The block that `kmalloc` returns for the larger file is apart from the block of
the file and from the buffer. -/
structure Fresh (call : WriteCall) (file : File) (block : ℕ) : Prop extends
    file.Fresh block call.bound where
  buffer : Apart block (pagesOf call.bound * 4096) call.buffer call.count

end WriteCall

/-- Memory and the file. -/
structure Stored where
  mem : ℕ → UInt8
  file : File

def writeStep (stored : Stored) (call : WriteCall) : Option Stored :=
  let written := ramfsWrite call.mem stored.file call.buffer call.offset call.count call.kmalloc
  some ⟨written.mem, written.file⟩

/-- Nobody else has written to the block of the file, and `kmalloc` does not
fail. -/
structure MayWrite (stored : Stored) (call : WriteCall) : Prop where
  small : call.bound < 2 ^ 31
  kept : stored.file.KeptIn stored.mem call.mem
  buffer : stored.file.Buffer call.buffer call.count
  fresh : pagesOf stored.file.size < pagesOf call.bound →
    call.Fresh stored.file (call.kmalloc (pagesOf call.bound))

/-- The byte of the last write that covers the position. -/
def latest : List WriteCall → ℕ → Option UInt8
  | [], _ => none
  | call :: calls, position =>
      match latest calls position with
      | some byte => some byte
      | none => if call.Covers position then some (call.byteAt position) else none

/-- What is known of the file after the writes. -/
structure LastWriterWins (stored : Stored) (calls : List WriteCall) : Prop where
  size : stored.file.size = (calls.map WriteCall.bound).foldr max 0
  reads : ∀ mem buffer offset count, stored.file.KeptIn stored.mem mem →
    stored.file.Buffer buffer count → offset + count ≤ stored.file.size →
    (ramfsRead mem stored.file buffer offset count).returned = count ∧
      ∀ i < count, ∀ byte, latest calls (offset + i) = some byte →
        (ramfsRead mem stored.file buffer offset count).mem (buffer + i) = byte

/-! ## One write -/

/-- A file that can be written, with its block in memory. -/
structure File.Sound (file : File) : Prop extends file.Placed where
  writable : file.flags &&& (fsFileReadOnly ||| fsFileIsDir ||| fsFileMount) = 0
  noDirectory : file.flags &&& fsFileIsDir = 0
  noMount : file.flags &&& fsFileMount = 0

/-- What a write does to a file and its bytes. -/
structure Wrote (file : File) (call : WriteCall) (written : Written) : Prop where
  returned : written.returned = call.count
  sound : written.file.Sound
  size : written.file.size = max file.size call.bound
  new : ∀ i < call.count,
    written.mem (written.file.privatePtr + (call.offset + i)) = call.mem (call.buffer + i)
  old : ∀ p < file.size, ¬ call.Covers p →
    written.mem (written.file.privatePtr + p) = call.mem (file.privatePtr + p)

variable {file : File} {call : WriteCall} {mem : ℕ → UInt8}

/-- The last lines of `ramfs_write`, on a file that has room for the bytes and holds
those of the old file. -/
theorem wrote_of_room {grown : File} (hgrown : grown.Sound) (hbuffer : grown.Buffer call.buffer
      call.count) (hroom : call.bound ≤ grown.size)
    (hsize : grown.size = max file.size call.bound)
    (hold : ∀ p < file.size, mem (grown.privatePtr + p) = call.mem (file.privatePtr + p))
    (hsource : ∀ i < call.count, mem (call.buffer + i) = call.mem (call.buffer + i)) :
    Wrote file call ⟨memcpy mem call.buffer (grown.privatePtr + call.offset)
      (call.count % 2 ^ 32), grown, asInt call.count⟩ := by
  have hsmall := hgrown.small
  have hmemory := hgrown.inMemory
  have hblock := size_le_blockLength grown
  have hbelow := hbuffer.inMemory
  have hapart := hbuffer.apart
  rw [WriteCall.bound] at hroom
  have hcopy : memcpy mem call.buffer (grown.privatePtr + call.offset) (call.count % 2 ^ 32) =
      store mem (grown.privatePtr + call.offset) (load mem call.buffer) call.count := by
    rw [Nat.mod_eq_of_lt (by omega)]
    refine memcpy_eq_store ?_ hbelow (by omega)
    rw [Apart] at hapart ⊢
    omega
  refine ⟨asInt_of_lt (by omega), hgrown, hsize, ?_, ?_⟩
  · intro i hi
    dsimp only
    rw [hcopy, ← Nat.add_assoc, store_inside hi, load, hsource i hi]
  · intro p hp hcovers
    rw [WriteCall.Covers, WriteCall.bound] at hcovers
    dsimp only
    rw [hcopy, store_outside (by omega), hold p hp]

theorem ramfsWrite_wrote (hfile : file.Sound) (hsmall : call.bound < 2 ^ 31)
    (hbuffer : file.Buffer call.buffer call.count)
    (hfresh : pagesOf file.size < pagesOf call.bound →
      call.Fresh file (call.kmalloc (pagesOf call.bound))) :
    Wrote file call
      (ramfsWrite call.mem file call.buffer call.offset call.count call.kmalloc) := by
  have hsum : call.count + call.offset = call.bound := Nat.add_comm _ _
  have hwide : call.bound % 2 ^ 64 = call.bound := Nat.mod_eq_of_lt (by omega)
  have hword : call.bound % 2 ^ 32 = call.bound := Nat.mod_eq_of_lt (by omega)
  simp only [ramfsWrite, hbuffer.notNull, hfile.writable, hsum, hwide, hword, ne_eq,
    not_true_eq_false, or_self, if_false]
  by_cases hgrows : file.size < call.bound
  · rw [if_pos hgrows]
    have hgrew :=
      @ramfsResize_grew call.mem file call.bound call.kmalloc hfile.toPlaced hgrows hsmall
      fun hpages => (hfresh hpages).toFresh
    generalize ramfsResize call.mem file call.bound call.kmalloc = resized at hgrew
    have hsound : resized.file.Sound :=
      ⟨hgrew.placed, by rw [hgrew.flags]; exact hfile.writable,
        by rw [hgrew.flags]; exact hfile.noDirectory,
        by rw [hgrew.flags]; exact hfile.noMount⟩
    have hapart : Apart call.buffer call.count resized.file.privatePtr
        resized.file.blockLength := by
      rcases hgrew.place with ⟨hsame, hlength⟩ | ⟨hpages, hmoved, hlength⟩
      · rw [hsame, hlength]
        exact hbuffer.apart
      · rw [hmoved, hlength]
        exact (hfresh hpages).buffer.symm
    rw [if_neg (by rw [hgrew.returned]; omega)]
    refine wrote_of_room hsound ⟨hbuffer.notNull, hbuffer.inMemory, hapart⟩ hgrew.size.ge
      (by rw [hgrew.size]; omega) hgrew.old ?_
    intro i hi
    refine hgrew.others _ ?_
    rw [Apart] at hapart
    omega
  · rw [if_neg hgrows]
    exact wrote_of_room hfile hbuffer (by omega) (by omega) (fun p hp => rfl)
      (fun i hi => rfl)

/-! ## Runs -/

@[simp]
theorem latest_append (calls : List WriteCall) (call : WriteCall) (position : ℕ) :
    latest (calls ++ [call]) position =
      if call.Covers position then some (call.byteAt position) else latest calls position := by
  induction calls with
  | nil => rfl
  | cons first calls ih =>
      rw [List.cons_append, latest, ih, latest]
      by_cases hcovers : call.Covers position
      · simp [hcovers]
      · simp [hcovers]

/-- What the writes so far have left. -/
structure Holds (stored : Stored) (calls : List WriteCall) : Prop where
  sound : stored.file.Sound
  size : stored.file.size = (calls.map WriteCall.bound).foldr max 0
  bytes : ∀ position byte, latest calls position = some byte →
    position < stored.file.size ∧ stored.mem (stored.file.privatePtr + position) = byte

theorem foldr_max_append (bounds : List ℕ) (bound : ℕ) :
    (bounds ++ [bound]).foldr max 0 = max (bounds.foldr max 0) bound := by
  induction bounds with
  | nil => simp
  | cons first bounds ih => rw [List.cons_append, List.foldr_cons, ih, List.foldr_cons,
      max_assoc]

/-- The step lemma. -/
theorem Holds.write {stored : Stored} {calls : List WriteCall} (hholds : Holds stored calls)
    (hmay : MayWrite stored call) :
    ∃ next, writeStep stored call = some next ∧ Holds next (calls ++ [call]) := by
  have hwrote := ramfsWrite_wrote hholds.sound hmay.small hmay.buffer hmay.fresh
  generalize hwritten : ramfsWrite call.mem stored.file call.buffer call.offset call.count
    call.kmalloc = written at hwrote
  refine ⟨⟨written.mem, written.file⟩, by rw [writeStep, hwritten], hwrote.sound, ?_, ?_⟩
  · rw [hwrote.size, hholds.size, List.map_append, List.map_singleton, foldr_max_append]
  · intro position byte hlatest
    rw [latest_append] at hlatest
    by_cases hcovers : call.Covers position
    · rw [if_pos hcovers, Option.some.injEq] at hlatest
      obtain ⟨hfrom, hto⟩ := hcovers
      rw [WriteCall.bound] at hto
      have hsize := hwrote.size
      rw [WriteCall.bound] at hsize
      have hnew := hwrote.new (position - call.offset) (by omega)
      rw [Nat.add_sub_cancel' hfrom] at hnew
      exact ⟨show position < written.file.size by omega, hnew.trans hlatest⟩
    · rw [if_neg hcovers] at hlatest
      obtain ⟨hin, hbyte⟩ := hholds.bytes position byte hlatest
      have hsize := hwrote.size
      refine ⟨show position < written.file.size by omega, ?_⟩
      dsimp only
      rw [hwrote.old position hin hcovers, ← hbyte]
      exact hmay.kept position (by have := size_le_blockLength stored.file; omega)

theorem exec_holds {stored : Stored} {before calls : List WriteCall}
    (hholds : Holds stored before) (hmeets : Meets writeStep MayWrite stored calls) :
    ∃ final, exec writeStep stored calls = some final ∧ Holds final (before ++ calls) := by
  induction calls generalizing stored before with
  | nil => exact ⟨stored, rfl, by rwa [List.append_nil]⟩
  | cons call calls ih =>
      obtain ⟨next, hstep, hnext⟩ := hholds.write hmeets.1
      obtain ⟨final, hrun, hfinal⟩ := ih hnext (meets_cons hmeets hstep).2
      rw [List.append_assoc, List.singleton_append] at hfinal
      exact ⟨final, exec_cons_eq_some.mpr ⟨next, hstep, hrun⟩, hfinal⟩

theorem Holds.lastWriterWins {stored : Stored} {calls : List WriteCall}
    (hholds : Holds stored calls) : LastWriterWins stored calls := by
  have hsmall := hholds.sound.small
  have hmemory := hholds.sound.inMemory
  have hblock := size_le_blockLength stored.file
  refine ⟨hholds.size, ?_⟩
  intro mem buffer offset count hkept hbuffer hend
  by_cases hnull : stored.file.privatePtr = 0
  · have hempty := hholds.sound.contents hnull
    have hnone : count = 0 := by omega
    subst hnone
    simp [ramfsRead, hnull, Read.nothing]
  · have hbelow := hbuffer.inMemory
    have hapart := hbuffer.apart
    have hcopy : memcpy mem (stored.file.privatePtr + offset) buffer (count % 2 ^ 32) =
        store mem buffer (load mem (stored.file.privatePtr + offset)) count := by
      rw [Nat.mod_eq_of_lt (by omega)]
      refine memcpy_eq_store ?_ (by omega) hbelow
      rw [Apart] at hapart ⊢
      omega
    simp only [ramfsRead, hbuffer.notNull, hnull, hholds.sound.noMount,
      hholds.sound.noDirectory, ne_eq, not_true_eq_false, or_self, if_false, hcopy]
    refine ⟨asInt_of_lt (by omega), ?_⟩
    intro i hi byte hbyte
    obtain ⟨hin, hstored⟩ := hholds.bytes _ _ hbyte
    rw [store_inside hi, load, Nat.add_assoc, hkept _ (by omega), hstored]

/-- A file without contents. -/
def emptyFile (flags : ℕ) : File := ⟨0, 0, flags⟩

/-- The bytes of a RAM file.  After any sequence of writes to a file that starts
empty, its size is the largest end of a write, and a read inside it returns its
count and delivers at every position that was written the byte of the last write
there. -/
theorem ramfs_lastWriterWins (mem : ℕ → UInt8) (flags : ℕ)
    (hflags : flags &&& (fsFileReadOnly ||| fsFileIsDir ||| fsFileMount) = 0)
    (calls : List WriteCall)
    (hmeets : Meets writeStep MayWrite ⟨mem, emptyFile flags⟩ calls) :
    ∃ final, exec writeStep ⟨mem, emptyFile flags⟩ calls = some final ∧
      LastWriterWins final calls := by
  have hbits : ∀ part, (fsFileReadOnly ||| fsFileIsDir ||| fsFileMount) &&& part = part →
      flags &&& part = 0 := by
    intro part hpart
    rw [← hpart, ← Nat.and_assoc, hflags, Nat.zero_and]
  have hinit : Holds ⟨mem, emptyFile flags⟩ [] := by
    refine ⟨⟨⟨Nat.two_pow_pos 31, fun _ => rfl, ?_⟩, hflags, hbits _ (by decide),
      hbits _ (by decide)⟩, rfl, ?_⟩
    · simp [emptyFile, File.blockLength, pagesOf]
    · intro position byte hlatest
      simp [latest] at hlatest
  obtain ⟨final, hrun, hholds⟩ := exec_holds hinit hmeets
  exact ⟨final, hrun, hholds.lastWriterWins⟩

/-! ## Three writes -/

def WriteCall.result (call : WriteCall) (file : File) : Written :=
  ramfsWrite call.mem file call.buffer call.offset call.count call.kmalloc

/-- Two bytes at position 3 of an empty file. -/
def twoBytes : WriteCall where
  mem := fun a => UInt8.ofNat a
  buffer := 0xc0200000
  offset := 3
  count := 2
  kmalloc := fun _ => 0xc0100000

/-- Ten bytes across the end of the first page. -/
def overPage : WriteCall where
  mem := (twoBytes.result (emptyFile 0)).mem
  buffer := 0xc0200000
  offset := 4090
  count := 10
  kmalloc := fun _ => 0xc0110000

/-- Three bytes over the second of the first two. -/
def overlap : WriteCall where
  mem := (overPage.result (twoBytes.result (emptyFile 0)).file).mem
  buffer := 0xc0200100
  offset := 4
  count := 3
  kmalloc := fun _ => 0

theorem mayWrite_three : Meets writeStep MayWrite ⟨fun _ => 0, emptyFile 0⟩
    [twoBytes, overPage, overlap] := by
  refine meets_cons_intro ⟨by decide, ?_, ⟨by decide, by decide, .inr (by decide)⟩,
    fun _ => ⟨⟨by decide, by decide, .inr (by decide)⟩, .inl (by decide)⟩⟩ ?_
  · intro p hp
    exact absurd hp (Nat.not_lt_zero p)
  rintro second hsecond
  obtain rfl := Option.some.inj hsecond
  refine meets_cons_intro ⟨by decide, fun _ _ => rfl, ⟨by decide, by decide, .inr ?_⟩,
    fun _ => ⟨⟨by decide, by decide, .inr ?_⟩, .inl (by decide)⟩⟩ ?_
  · decide +kernel
  · decide +kernel
  rintro third hthird
  obtain rfl := Option.some.inj hthird
  refine meets_cons_intro ⟨by decide, fun _ _ => rfl, ⟨by decide, by decide, .inr ?_⟩, ?_⟩
    fun _ _ => trivial
  · decide +kernel
  · intro hgrows
    exact absurd hgrows (by decide +kernel)

/-- The file grows twice, moves once, and the last write covers a byte of the first. -/
theorem ramfs_lastWriterWins_overlap :
    ∃ final, exec writeStep ⟨fun _ => 0, emptyFile 0⟩ [twoBytes, overPage, overlap] =
        some final ∧
      LastWriterWins final [twoBytes, overPage, overlap] :=
  ramfs_lastWriterWins (fun _ => 0) 0 (by decide) [twoBytes, overPage, overlap] mayWrite_three

end KimisOS.RamData
