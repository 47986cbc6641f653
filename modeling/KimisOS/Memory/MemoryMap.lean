import KimisOS.Memory.Frames

/-!
# From the memory map of the firmware to the frame map

`pm_init` takes all frames and then goes through the entries of the map page by page.
The byte of a page is found from the start of its entry and the number of the page
separately, and so is the bit, which may lie behind the last one of the byte.
-/

namespace KimisOS.MemoryMap

open KimisOS.Frames

def biosMmapUsable : UInt32 := 1

/-- `mmap_entry_t`, without the extended flags. -/
structure MmapEntry where
  entryBase : UInt64
  entryLength : UInt64
  type : UInt32
  deriving DecidableEq

namespace MmapEntry

/-- `entry_length >> 12`. -/
def pages (entry : MmapEntry) : ℕ := entry.entryLength.toNat >>> 12

/-- The byte of the frame map that page `j` of an entry is marked in. -/
def byteOf (entry : MmapEntry) (j : ℕ) : ℕ := (entry.entryBase.toNat >>> 15) + (j >>> 3)

/-- The bit of this byte. -/
def bitOf (entry : MmapEntry) (j : ℕ) : ℕ :=
  (j &&& 7) + ((entry.entryBase.toNat >>> 12) &&& 7)

/-- Where page `j` starts: `j << 12` has 32 bits, the sum 64. -/
def addressOf (entry : MmapEntry) (j : ℕ) : ℕ :=
  (entry.entryBase.toNat + j <<< 12 % 2 ^ 32) % 2 ^ 64

/-- The end of an entry, in 64 bits. -/
def stop (entry : MmapEntry) : ℕ :=
  (entry.entryBase.toNat + entry.entryLength.toNat) % 2 ^ 64

end MmapEntry

/-- A page that starts before the end of the previous entry is left out. -/
def Hidden (previous : Option MmapEntry) (entry : MmapEntry) (j : ℕ) : Prop :=
  ∃ before, previous = some before ∧ entry.addressOf j < before.stop

instance (previous : Option MmapEntry) (entry : MmapEntry) (j : ℕ) :
    Decidable (Hidden previous entry j) :=
  match previous with
  | none => isFalse fun ⟨_, hnone, _⟩ => nomatch hnone
  | some before =>
      decidable_of_iff (entry.addressOf j < before.stop)
        ⟨fun hlt => ⟨before, rfl, hlt⟩, fun ⟨_, hsome, hlt⟩ => Option.some.inj hsome ▸ hlt⟩

/-! ## The marking loop -/

/-- The body of the inner loop. -/
def markPage (previous : Option MmapEntry) (entry : MmapEntry) (j : ℕ) (map : FrameMap) :
    FrameMap :=
  if Hidden previous entry j then map
  else
    let byte := entry.byteOf j
    let bit := bitMask (entry.bitOf j)
    { map with
      pmMap := Function.update map.pmMap byte
        (if entry.type ≠ biosMmapUsable then map.pmMap byte ||| bit
        else map.pmMap byte &&& ~~~bit) }

/-- The first rounds of the inner loop, whose counter has 32 bits. -/
def markRounds (previous : Option MmapEntry) (entry : MmapEntry) : ℕ → FrameMap → FrameMap
  | 0, map => map
  | rounds + 1, map =>
      markPage previous entry (rounds % 2 ^ 32) (markRounds previous entry rounds map)

/-- The inner loop, which never ends when its counter cannot get to its bound. -/
def markEntry (previous : Option MmapEntry) (entry : MmapEntry) (map : FrameMap) :
    Option FrameMap :=
  if entry.pages < 2 ^ 32 then some (markRounds previous entry entry.pages map) else none

/-- The outer loop. -/
def markEntries : Option MmapEntry → List MmapEntry → FrameMap → Option FrameMap
  | _, [], map => some map
  | previous, entry :: mmap, map =>
      match markEntry previous entry map with
      | none => none
      | some map => markEntries (some entry) mmap map

/-- `pm_init` up to the reserve loops: all frames are taken before the map is read. -/
def pmInitMarks (mmap : List MmapEntry) : Option FrameMap :=
  markEntries none mmap ⟨fun _ => 0xff, 0⟩

/-! ## What one entry marks -/

/-- The frames whose bits the first rounds touch: the bit of a page that carries into
the next byte is lost. -/
def Reached (entry : MmapEntry) (rounds frame : ℕ) : Prop :=
  ∃ j < rounds, entry.bitOf j < 8 ∧ frame = entry.entryBase.toNat / 4096 + j

section Entry

variable {previous : Option MmapEntry} {entry : MmapEntry} {frame j : ℕ}

theorem MmapEntry.pages_eq (entry : MmapEntry) :
    entry.pages = entry.entryLength.toNat / 4096 :=
  Nat.shiftRight_eq_div_pow _ 12

theorem MmapEntry.byteOf_eq (entry : MmapEntry) (j : ℕ) :
    entry.byteOf j = entry.entryBase.toNat / 32768 + j / 8 := by
  rw [byteOf, Nat.shiftRight_eq_div_pow, Nat.shiftRight_eq_div_pow]

theorem MmapEntry.bitOf_eq (entry : MmapEntry) (j : ℕ) :
    entry.bitOf j = j % 8 + entry.entryBase.toNat / 4096 % 8 := by
  have hmask : ∀ n : ℕ, n &&& 7 = n % 8 := fun n => Nat.and_two_pow_sub_one_eq_mod n 3
  rw [bitOf, hmask, hmask, Nat.shiftRight_eq_div_pow]

/-- The byte and the bit name the page, though the bit may lie in the next byte. -/
theorem MmapEntry.frame_eq (entry : MmapEntry) (j : ℕ) :
    8 * entry.byteOf j + entry.bitOf j = entry.entryBase.toNat / 4096 + j := by
  rw [bitOf_eq, byteOf_eq]
  omega

theorem bitMask_carried {bit : ℕ} (hbit : 8 ≤ bit) : bitMask bit = 0 :=
  BitVec.shiftLeft_eq_zero hbit

theorem used_markPage (hvisible : ¬ Hidden previous entry j) (map : FrameMap) (frame : ℕ) :
    (markPage previous entry j map).used frame =
      if entry.bitOf j < 8 ∧ frame = entry.entryBase.toNat / 4096 + j then
        decide (entry.type ≠ biosMmapUsable)
      else map.used frame := by
  rw [markPage, if_neg hvisible]
  dsimp only
  by_cases hbit : entry.bitOf j < 8
  · have hframe := entry.frame_eq j
    by_cases husable : entry.type = biosMmapUsable
    · rw [if_neg (not_not.mpr husable)]
      refine (used_clearBit map hbit frame).trans ?_
      rw [hframe]
      by_cases hhere : frame = entry.entryBase.toNat / 4096 + j
      · simp [hhere, hbit, husable]
      · simp [hhere]
    · rw [if_pos husable]
      refine (used_setBit map hbit frame).trans ?_
      rw [hframe]
      by_cases hhere : frame = entry.entryBase.toNat / 4096 + j
      · simp [hhere, hbit, husable]
      · simp [hhere]
  · have hsame : (if entry.type ≠ biosMmapUsable then
          map.pmMap (entry.byteOf j) ||| bitMask (entry.bitOf j)
        else map.pmMap (entry.byteOf j) &&& ~~~bitMask (entry.bitOf j)) =
        map.pmMap (entry.byteOf j) := by
      rw [bitMask_carried (Nat.not_lt.mp hbit)]
      split
      · exact BitVec.or_zero
      · rw [BitVec.ofNat_eq_ofNat, BitVec.not_zero, BitVec.and_allOnes]
    rw [hsame, Function.update_eq_self, if_neg (fun h => hbit h.1)]

theorem used_markRounds {rounds : ℕ} (hrounds : rounds ≤ 2 ^ 32)
    (hvisible : ∀ j < rounds, ¬ Hidden previous entry j) (map : FrameMap) (frame : ℕ) :
    (Reached entry rounds frame → (markRounds previous entry rounds map).used frame =
        decide (entry.type ≠ biosMmapUsable)) ∧
      (¬ Reached entry rounds frame →
        (markRounds previous entry rounds map).used frame = map.used frame) := by
  induction rounds with
  | zero =>
      refine ⟨?_, fun _ => rfl⟩
      rintro ⟨j, hj, -⟩
      exact absurd hj (Nat.not_lt_zero j)
  | succ rounds ih =>
      obtain ⟨hreached, hother⟩ := ih (by omega) fun j hj => hvisible j (by omega)
      rw [markRounds, Nat.mod_eq_of_lt (by omega),
        used_markPage (hvisible rounds (Nat.lt_succ_self rounds))]
      constructor
      · rintro ⟨j, hj, hbit, rfl⟩
        by_cases hlast : j = rounds
        · rw [← hlast, if_pos ⟨hbit, rfl⟩]
        · rw [if_neg (by omega)]
          exact hreached ⟨j, by omega, hbit, rfl⟩
      · intro hnot
        rw [if_neg fun hhere => hnot ⟨rounds, Nat.lt_succ_self rounds, hhere.1, hhere.2⟩]
        refine hother ?_
        rintro ⟨j, hj, hframe⟩
        exact hnot ⟨j, by omega, hframe⟩

end Entry

/-! ## The usable frames -/

/-- A frame lies in an entry. -/
def MmapEntry.Covers (entry : MmapEntry) (frame : ℕ) : Prop :=
  entry.entryBase.toNat ≤ frame * 4096 ∧
    frame * 4096 < entry.entryBase.toNat + entry.entryLength.toNat

/-- The entries are sorted and do not overlap, and each consists of pages below 4 GiB. -/
structure Sorted (mmap : List MmapEntry) : Prop where
  apart : mmap.Pairwise fun before entry =>
    before.entryBase.toNat ≤ entry.entryBase.toNat ∧
      (before.entryBase.toNat + before.entryLength.toNat ≤ entry.entryBase.toNat ∨
        entry.entryLength = 0)
  aligned : ∀ entry ∈ mmap,
    entry.entryBase.toNat % 4096 = 0 ∧ entry.entryLength.toNat % 4096 = 0
  bounded : ∀ entry ∈ mmap,
    entry.entryBase.toNat + entry.entryLength.toNat ≤ 2 ^ 32

/-- After the marking loop exactly the frames in usable entries are free. -/
def MarksUsable (mmap : List MmapEntry) : Prop :=
  ∃ map, pmInitMarks mmap = some map ∧ ∀ frame < 8 * mmapCount,
    map.used frame = false ↔
      ∃ entry ∈ mmap, entry.type = biosMmapUsable ∧ entry.Covers frame

/-- Every usable entry starts at a multiple of 32 KiB, or has no page behind the next
one. -/
def NothingCarried (mmap : List MmapEntry) : Prop :=
  ∀ entry ∈ mmap, entry.type = biosMmapUsable →
    entry.entryBase.toNat % 32768 = 0 ∨
      entry.entryBase.toNat / 4096 % 8 + entry.pages ≤ 8

instance (mmap : List MmapEntry) : Decidable (NothingCarried mmap) :=
  inferInstanceAs (Decidable (∀ entry ∈ mmap, entry.type = biosMmapUsable →
    entry.entryBase.toNat % 32768 = 0 ∨
      entry.entryBase.toNat / 4096 % 8 + entry.pages ≤ 8))

section Usable

variable {previous : Option MmapEntry} {entry : MmapEntry} {mmap : List MmapEntry}
  {frame : ℕ}

theorem Sorted.tail (hsorted : Sorted (previous.toList ++ entry :: mmap)) :
    Sorted (entry :: mmap) := by
  have hsub : (entry :: mmap).Sublist (previous.toList ++ entry :: mmap) :=
    List.sublist_append_right _ _
  exact ⟨hsorted.apart.sublist hsub, fun e he => hsorted.aligned e (hsub.subset he),
    fun e he => hsorted.bounded e (hsub.subset he)⟩

theorem Sorted.pages_le (hsorted : Sorted mmap) (hentry : entry ∈ mmap) :
    entry.entryBase.toNat + entry.pages * 4096 ≤ 2 ^ 32 := by
  have hbound := hsorted.bounded entry hentry
  rw [entry.pages_eq]
  omega

/-- No page of a sorted map is left out. -/
theorem Sorted.visible (hsorted : Sorted (previous.toList ++ entry :: mmap)) {j : ℕ}
    (hj : j < entry.pages) : ¬ Hidden previous entry j := by
  rintro ⟨before, rfl, hlt⟩
  have hpages := hsorted.pages_le
    (List.mem_append_right (some before).toList (List.mem_cons_self (l := mmap)))
  obtain ⟨-, hstop | hempty⟩ :=
    (List.pairwise_cons.mp hsorted.apart).1 entry List.mem_cons_self
  · rw [MmapEntry.addressOf, MmapEntry.stop, Nat.shiftLeft_eq,
      Nat.mod_eq_of_lt (show j * 2 ^ 12 < 2 ^ 32 by omega),
      Nat.mod_eq_of_lt (show entry.entryBase.toNat + j * 2 ^ 12 < 2 ^ 64 by omega),
      Nat.mod_eq_of_lt (by omega)] at hlt
    omega
  · rw [entry.pages_eq, hempty] at hj
    exact absurd hj (Nat.not_lt_zero j)

/-- What is reached are the frames of the entry whose bit is not carried. -/
theorem Sorted.reached_iff (hsorted : Sorted mmap) (hentry : entry ∈ mmap) :
    Reached entry entry.pages frame ↔
      entry.Covers frame ∧ entry.bitOf (frame - entry.entryBase.toNat / 4096) < 8 := by
  obtain ⟨hbase, hlength⟩ := hsorted.aligned entry hentry
  have hpages := entry.pages_eq
  constructor
  · rintro ⟨j, hj, hbit, rfl⟩
    rw [Nat.add_sub_cancel_left]
    exact ⟨⟨by omega, by omega⟩, hbit⟩
  · rintro ⟨⟨hlow, hhigh⟩, hbit⟩
    exact ⟨frame - entry.entryBase.toNat / 4096, by omega, hbit, by omega⟩

/-- No frame lies in two entries. -/
theorem Sorted.covers_once (hsorted : Sorted mmap) :
    mmap.Pairwise fun before entry => ∀ frame, before.Covers frame → ¬ entry.Covers frame := by
  refine hsorted.apart.imp ?_
  rintro before entry ⟨-, hstop | hempty⟩ frame hbefore ⟨hlow, hhigh⟩
  · have hend := hbefore.2
    omega
  · rw [hempty] at hhigh
    exact absurd hhigh (Nat.not_lt.mpr hlow)

theorem Sorted.covers_ne {other : MmapEntry} (hsorted : Sorted mmap) (hother : other ∈ mmap)
    (hentry : entry ∈ mmap) (hne : other ≠ entry) (hcovers : other.Covers frame) :
    ¬ entry.Covers frame := by
  have hsymm : Std.Symm fun before entry : MmapEntry =>
      ∀ frame, before.Covers frame → ¬ entry.Covers frame :=
    ⟨fun _ _ hapart frame hright hleft => hapart frame hleft hright⟩
  exact hsorted.covers_once.forall hother hentry hne frame hcovers

/-- What the outer loop leaves of a frame. -/
theorem Sorted.markEntries (hsorted : Sorted (previous.toList ++ mmap)) (map : FrameMap) :
    ∃ marked, MemoryMap.markEntries previous mmap map = some marked ∧ ∀ frame,
      marked.used frame = false ↔
        (∃ entry ∈ mmap, entry.type = biosMmapUsable ∧
          Reached entry entry.pages frame) ∨
        (map.used frame = false ∧ ∀ entry ∈ mmap, ¬ Reached entry entry.pages frame) := by
  induction mmap generalizing previous map with
  | nil => exact ⟨map, rfl, fun frame => by simp⟩
  | cons entry mmap ih =>
      have htail := hsorted.tail
      have hpages := htail.pages_le List.mem_cons_self
      have hfew : entry.pages < 2 ^ 32 := by omega
      obtain ⟨marked, hmarked, hused⟩ :=
        @ih (some entry) htail (markRounds previous entry entry.pages map)
      refine ⟨marked, ?_, fun frame => ?_⟩
      · rw [MemoryMap.markEntries, markEntry, if_pos hfew]
        exact hmarked
      obtain ⟨hreached, hother⟩ := used_markRounds hfew.le
        (fun j hj => hsorted.visible hj) map frame
      rw [hused frame]
      by_cases hhere : Reached entry entry.pages frame
      · -- then no later entry reaches the frame
        have hcovers := ((htail.reached_iff List.mem_cons_self).mp hhere).1
        have honce : ∀ later ∈ mmap, ¬ Reached later later.pages frame := by
          intro later hlater hagain
          exact (List.pairwise_cons.mp htail.covers_once).1 later hlater frame hcovers
            ((htail.reached_iff (List.mem_cons_of_mem entry hlater)).mp hagain).1
        rw [hreached hhere, decide_eq_false_iff_not, not_not]
        constructor
        · rintro (⟨later, hlater, -, hagain⟩ | ⟨husable, -⟩)
          · exact absurd hagain (honce later hlater)
          · exact .inl ⟨entry, List.mem_cons_self, husable, hhere⟩
        · rintro (⟨later, hlater, husable, hagain⟩ | ⟨-, hnone⟩)
          · rcases List.mem_cons.mp hlater with rfl | hmem
            · exact .inr ⟨husable, honce⟩
            · exact absurd hagain (honce later hmem)
          · exact absurd hhere (hnone entry List.mem_cons_self)
      · rw [hother hhere]
        simp only [List.exists_mem_cons_iff, List.forall_mem_cons, hhere, and_false, false_or,
          not_false_eq_true, true_and]

/-- A page is carried exactly when the entry starts inside a byte and goes beyond it. -/
theorem Sorted.nothing_carried (hsorted : Sorted mmap) (hentry : entry ∈ mmap) :
    (entry.entryBase.toNat % 32768 = 0 ∨
        entry.entryBase.toNat / 4096 % 8 + entry.pages ≤ 8) ↔
      ∀ j < entry.pages, entry.bitOf j < 8 := by
  obtain ⟨hbase, -⟩ := hsorted.aligned entry hentry
  constructor
  · intro hcase j hj
    rw [entry.bitOf_eq]
    omega
  · intro hall
    by_contra hcarried
    rw [not_or] at hcarried
    have hbit := hall (8 - entry.entryBase.toNat / 4096 % 8) (by omega)
    rw [entry.bitOf_eq] at hbit
    omega

/-- Before the map is read, every frame is taken. -/
theorem used_allTaken (frame : ℕ) : FrameMap.used ⟨fun _ => 0xff, 0⟩ frame = true := by
  have hall : (0xff : BitVec 8) = BitVec.allOnes 8 := by decide
  rw [FrameMap.used, hall, BitVec.getLsbD_allOnes, decide_eq_true (Nat.mod_lt _ (by decide))]

end Usable

/-- The marking loop frees exactly the usable frames when no usable entry that starts
inside a byte of the frame map goes beyond that byte, and only then. -/
theorem marksUsable_iff {mmap : List MmapEntry} (hsorted : Sorted mmap) :
    MarksUsable mmap ↔ NothingCarried mmap := by
  obtain ⟨map, hmap, hused⟩ := @Sorted.markEntries none mmap hsorted ⟨fun _ => 0xff, 0⟩
  have hfree : ∀ frame, map.used frame = false ↔
      ∃ entry ∈ mmap, entry.type = biosMmapUsable ∧ Reached entry entry.pages frame := by
    intro frame
    rw [hused frame, used_allTaken]
    simp only [Bool.true_eq_false, false_and, or_false]
  constructor
  · rintro ⟨marked, hmarked, hlaw⟩ entry hentry husable
    obtain rfl : map = marked := Option.some.inj (hmap.symm.trans hmarked)
    rw [hsorted.nothing_carried hentry]
    intro j hj
    -- the frame of page `j` is free, and only this entry can have freed it
    have hpages := hsorted.pages_le hentry
    have hcovers : entry.Covers (entry.entryBase.toNat / 4096 + j) := by
      have hpage := entry.pages_eq
      obtain ⟨hbase, -⟩ := hsorted.aligned entry hentry
      exact ⟨by omega, by omega⟩
    have hbelow : entry.entryBase.toNat / 4096 + j < 8 * mmapCount := by
      rw [mmapCount]
      omega
    obtain ⟨other, hother, -, hreached⟩ := (hfree _).mp
      ((hlaw _ hbelow).mpr ⟨entry, hentry, husable, hcovers⟩)
    obtain ⟨hagain, hbit⟩ := (hsorted.reached_iff hother).mp hreached
    obtain rfl : other = entry := by
      by_contra hne
      exact hsorted.covers_ne hother hentry hne hagain hcovers
    rwa [Nat.add_sub_cancel_left] at hbit
  · intro hcondition
    refine ⟨map, hmap, fun frame _ => ?_⟩
    rw [hfree frame]
    constructor
    · rintro ⟨entry, hentry, husable, hreached⟩
      exact ⟨entry, hentry, husable, ((hsorted.reached_iff hentry).mp hreached).1⟩
    · rintro ⟨entry, hentry, husable, hcovers⟩
      refine ⟨entry, hentry, husable, (hsorted.reached_iff hentry).mpr ⟨hcovers, ?_⟩⟩
      refine (hsorted.nothing_carried hentry).mp (hcondition entry hentry husable) _ ?_
      have hpage := entry.pages_eq
      obtain ⟨hbase, hlength⟩ := hsorted.aligned entry hentry
      obtain ⟨hlow, hhigh⟩ := hcovers
      omega

/-- The map of a small machine. -/
def plainMap : List MmapEntry := [⟨0, 0x9f000, 1⟩, ⟨0x9f000, 0x1000, 2⟩, ⟨0x100000, 0x700000, 1⟩]

theorem marksUsable_plain : MarksUsable plainMap := by
  have hsorted : Sorted plainMap := ⟨by decide, by decide, by decide⟩
  exact (marksUsable_iff hsorted).mpr (by decide)

/-- Nine pages from `0x1000` on: the last two stay taken. -/
def carriedMap : List MmapEntry := [⟨0x1000, 0x9000, 1⟩]

theorem marksUsable_carried : Sorted carriedMap ∧ ¬ MarksUsable carriedMap := by
  have hsorted : Sorted carriedMap := ⟨by decide, by decide, by decide⟩
  refine ⟨hsorted, fun hlaw => ?_⟩
  exact absurd ((marksUsable_iff hsorted).mp hlaw) (by decide)

/-! ## The bytes that are touched -/

/-- The bytes that the first rounds of the inner loop read and write. -/
def touched (previous : Option MmapEntry) (entry : MmapEntry) : ℕ → List ℕ
  | 0 => []
  | rounds + 1 =>
      touched previous entry rounds ++
        if Hidden previous entry (rounds % 2 ^ 32) then []
        else [entry.byteOf (rounds % 2 ^ 32)]

/-- The bytes of the frames below 2 MiB, which `pm_init` reserves. -/
def reservedLow : List ℕ := (List.range 512).map fun i => (i * 4096) >>> 15

/-- The loop that reserves the frames of the kernel, page by page while there is one. -/
def reservedKernel (getPaddr : UInt32 → UInt32) : ℕ → UInt32 → List ℕ
  | 0, _ => []
  | rounds + 1, kernelAddr =>
      if getPaddr kernelAddr = 0 then []
      else (getPaddr kernelAddr).toNat >>> 15 ::
        reservedKernel getPaddr rounds (kernelAddr + 0x1000)

/-- The inner loop gets through that many rounds. -/
def MmapEntry.Takes (entry : MmapEntry) (rounds : ℕ) : Prop :=
  entry.pages < 2 ^ 32 → rounds ≤ entry.pages

/-- No round of the marking loop touches a byte outside the frame map. -/
def MarksInside : Option MmapEntry → List MmapEntry → Prop
  | _, [] => True
  | previous, entry :: mmap =>
      (∀ rounds, entry.Takes rounds → ∀ byte ∈ touched previous entry rounds,
        byte < mmapCount) ∧
      (entry.pages < 2 ^ 32 → MarksInside (some entry) mmap)

/-- `pm_init` stays inside the frame map, for all page tables it may find. -/
structure StaysInside (mmap : List MmapEntry) : Prop where
  marks : MarksInside none mmap
  low : ∀ byte ∈ reservedLow, byte < mmapCount
  kernel : ∀ getPaddr rounds kernelAddr,
    ∀ byte ∈ reservedKernel getPaddr rounds kernelAddr, byte < mmapCount

/-- Of every entry that is read, the pages from 4 GiB on start before the end of the
entry in front of it. -/
def HighPagesHidden (mmap : List MmapEntry) : Prop :=
  ∀ before entry after, mmap = before ++ entry :: after →
    (∀ earlier ∈ before, earlier.pages < 2 ^ 32) →
      ∀ j < min entry.pages (2 ^ 32), mmapCount ≤ entry.byteOf j →
        Hidden before.getLast? entry j

section Touched

variable {previous : Option MmapEntry} {entry : MmapEntry} {mmap : List MmapEntry}

theorem mem_touched {rounds byte : ℕ} :
    byte ∈ touched previous entry rounds ↔ ∃ round < rounds,
      ¬ Hidden previous entry (round % 2 ^ 32) ∧ byte = entry.byteOf (round % 2 ^ 32) := by
  induction rounds with
  | zero => simp [touched]
  | succ rounds ih =>
      rw [touched, List.mem_append, ih]
      constructor
      · rintro (⟨round, hround, hbyte⟩ | hlast)
        · exact ⟨round, by omega, hbyte⟩
        · split at hlast
          · cases hlast
          · exact ⟨rounds, by omega, ‹_›, List.mem_singleton.mp hlast⟩
      · rintro ⟨round, hround, hvisible, hbyte⟩
        by_cases hlast : round = rounds
        · right
          rw [← hlast, if_neg hvisible]
          exact List.mem_singleton.mpr hbyte
        · exact .inl ⟨round, by omega, hvisible, hbyte⟩

/-- The rounds change no byte that they do not touch. -/
theorem markRounds_untouched {rounds byte : ℕ} (map : FrameMap)
    (hbyte : byte ∉ touched previous entry rounds) :
    (markRounds previous entry rounds map).pmMap byte = map.pmMap byte := by
  induction rounds with
  | zero => rfl
  | succ rounds ih =>
      rw [touched, List.mem_append, not_or] at hbyte
      rw [markRounds, markPage]
      by_cases hhidden : Hidden previous entry (rounds % 2 ^ 32)
      · rw [if_pos hhidden]
        exact ih hbyte.1
      · rw [if_neg hhidden, List.mem_singleton] at hbyte
        rw [if_neg hhidden]
        exact (Function.update_of_ne hbyte.2 _ _).trans (ih hbyte.1)

/-- The inner loop gets to every page below its bound that its counter can hold. -/
theorem touched_inside_iff :
    (∀ rounds, entry.Takes rounds → ∀ byte ∈ touched previous entry rounds,
        byte < mmapCount) ↔
      ∀ j < min entry.pages (2 ^ 32), mmapCount ≤ entry.byteOf j →
        Hidden previous entry j := by
  constructor
  · intro hinside j hj hhigh
    by_contra hvisible
    have hmod : j % 2 ^ 32 = j := Nat.mod_eq_of_lt (by omega)
    have htakes : entry.Takes (j + 1) := fun _ => by omega
    refine absurd (hinside (j + 1) htakes (entry.byteOf j) ?_) (Nat.not_lt.mpr hhigh)
    exact mem_touched.mpr ⟨j, Nat.lt_succ_self j, by rwa [hmod], by rw [hmod]⟩
  · intro hhidden rounds htakes byte hbyte
    obtain ⟨round, hround, hvisible, rfl⟩ := mem_touched.mp hbyte
    by_contra hhigh
    refine hvisible (hhidden (round % 2 ^ 32) ?_ (Nat.not_lt.mp hhigh))
    by_cases hfew : entry.pages < 2 ^ 32
    · have hrounds := htakes hfew
      omega
    · omega

theorem marksInside_iff :
    MarksInside previous mmap ↔
      ∀ before entry after, mmap = before ++ entry :: after →
        (∀ earlier ∈ before, earlier.pages < 2 ^ 32) →
          ∀ j < min entry.pages (2 ^ 32), mmapCount ≤ entry.byteOf j →
            Hidden (before.getLast?.or previous) entry j := by
  induction mmap generalizing previous with
  | nil =>
      refine iff_of_true trivial ?_
      intro before entry after hmap
      simp at hmap
  | cons first mmap ih =>
      rw [MarksInside, touched_inside_iff, ih]
      constructor
      · rintro ⟨hfirst, hrest⟩ before entry after hmap hshort
        cases before with
        | nil =>
            obtain ⟨rfl, rfl⟩ := List.cons.inj hmap
            exact hfirst
        | cons head before =>
            obtain ⟨rfl, htail⟩ := List.cons.inj hmap
            have hlast : (first :: before).getLast?.or previous =
                before.getLast?.or (some first) := by
              rw [List.getLast?_cons]
              cases before.getLast? <;> rfl
            rw [hlast]
            exact hrest (hshort first List.mem_cons_self) before entry after htail
              fun earlier hearlier => hshort earlier (List.mem_cons_of_mem first hearlier)
      · intro hall
        refine ⟨hall [] first mmap rfl (fun _ hmem => by cases hmem), ?_⟩
        intro hfirst before entry after hmap hshort
        have hlast : (first :: before).getLast?.or previous =
            before.getLast?.or (some first) := by
          rw [List.getLast?_cons]
          cases before.getLast? <;> rfl
        rw [← hlast]
        refine hall (first :: before) entry after (by rw [hmap]; rfl) ?_
        intro earlier hearlier
        rcases List.mem_cons.mp hearlier with rfl | hmem
        · exact hfirst
        · exact hshort earlier hmem

/-- An address of 32 bits lies in a frame of the map. -/
theorem reservedKernel_inside (getPaddr : UInt32 → UInt32) (rounds : ℕ) (kernelAddr : UInt32) :
    ∀ byte ∈ reservedKernel getPaddr rounds kernelAddr, byte < mmapCount := by
  induction rounds generalizing kernelAddr with
  | zero => exact fun _ hmem => by cases hmem
  | succ rounds ih =>
      intro byte hbyte
      rw [reservedKernel] at hbyte
      split at hbyte
      · cases hbyte
      · rcases List.mem_cons.mp hbyte with rfl | hmem
        · have hlt := (getPaddr kernelAddr).toNat_lt
          rw [Nat.shiftRight_eq_div_pow, mmapCount]
          omega
        · exact ih (kernelAddr + 0x1000) byte hmem

end Touched

/-- `pm_init` stays inside the frame map exactly when no page from 4 GiB on is read that
the entry in front of its own does not hide. -/
theorem staysInside_iff (mmap : List MmapEntry) :
    StaysInside mmap ↔ HighPagesHidden mmap := by
  have hmarks : MarksInside none mmap ↔ HighPagesHidden mmap := by
    simp only [marksInside_iff, Option.or_none, HighPagesHidden]
  constructor
  · intro hinside
    exact hmarks.mp hinside.marks
  · intro hhidden
    refine ⟨hmarks.mpr hhidden, ?_, reservedKernel_inside⟩
    intro byte hbyte
    obtain ⟨i, hi, rfl⟩ := List.mem_map.mp hbyte
    rw [List.mem_range] at hi
    rw [Nat.shiftRight_eq_div_pow, mmapCount]
    omega

/-- A map that ends at 4 GiB keeps `pm_init` inside. -/
theorem highPagesHidden_of_below {mmap : List MmapEntry}
    (hbelow : ∀ entry ∈ mmap, entry.entryBase.toNat + entry.entryLength.toNat ≤ 2 ^ 32) :
    HighPagesHidden mmap := by
  intro before entry after hmap _ j hj hhigh
  have hentry : entry ∈ mmap := by
    rw [hmap]
    exact List.mem_append_right before List.mem_cons_self
  have hend := hbelow entry hentry
  rw [entry.pages_eq] at hj
  rw [entry.byteOf_eq, mmapCount] at hhigh
  omega

/-- The memory from 4 GiB on of a machine with more than the emulator is given. -/
theorem pmInit_leaves_map : ¬ StaysInside [⟨0x100000000, 0x40000000, 1⟩] := by
  intro hinside
  obtain ⟨before, hbefore, -⟩ := (staysInside_iff _).mp hinside [] ⟨0x100000000, 0x40000000, 1⟩
    [] rfl (fun _ hmem => by cases hmem) 0 (by decide) (by decide)
  cases hbefore

end KimisOS.MemoryMap
