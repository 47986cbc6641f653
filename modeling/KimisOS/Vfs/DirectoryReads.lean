import KimisOS.Vfs.RamData

/-!
# Reading directories

A directory is read as an array of `vfile_t`, from an entry on.  The number of
entries that are copied is cut to the length of the directory, and not to what is
left of it behind the first one.
-/

namespace KimisOS.RamData

open KimisOS.ByteStore
open KimisOS.Vfs

/-- A directory in memory: the array of pointers to its children, each of which has
a page of its own. -/
structure Directory (mem : ℕ → UInt8) extends File where
  children : List ℕ
  isDir : flags &&& fsFileIsDir ≠ 0
  noMount : flags &&& fsFileMount = 0
  size_eq : size = 4 * children.length
  table : children ≠ [] → privatePtr ≠ 0
  inMemory : privatePtr + size ≤ 2 ^ 32
  listed : ∀ i child, children[i]? = some child → readU32 mem (privatePtr + 4 * i) = child
  pages : ∀ child ∈ children, child % 4096 = 0 ∧ child < 2 ^ 32
  nodup : children.Nodup

namespace Directory

variable {mem : ℕ → UInt8} (dir : Directory mem)

/-- How many entries there are to read from `offset` on. -/
def entriesLeft (offset count : ℕ) : ℕ :=
  min (dir.children.length - offset) (count / sizeofVfile)

/-- A buffer for these entries, apart from the children and their array. -/
structure Takes (buffer offset count : ℕ) : Prop where
  notNull : buffer ≠ 0
  inMemory : buffer + dir.entriesLeft offset count * sizeofVfile ≤ 2 ^ 32
  table : Apart dir.privatePtr dir.size buffer (dir.entriesLeft offset count * sizeofVfile)
  children : ∀ child ∈ dir.children,
    Apart child sizeofVfile buffer (dir.entriesLeft offset count * sizeofVfile)

/-- The read returns whole entries in order: those that are left, and no more than
were asked for. -/
structure WholeEntries (buffer offset count : ℕ) (read : Read) : Prop where
  returned : read.returned = (dir.entriesLeft offset count * sizeofVfile : ℕ)
  slots : read.slots = (List.range (dir.entriesLeft offset count)).map (offset + ·)
  entries : ∀ i < dir.entriesLeft offset count, ∃ child,
    dir.children[offset + i]? = some child ∧ ∀ b < sizeofVfile,
      read.mem (buffer + i * sizeofVfile + b) = mem (child + b)
  others : ∀ a, a < buffer ∨ buffer + dir.entriesLeft offset count * sizeofVfile ≤ a →
    read.mem a = mem a

/-- The read asks for no more entries than are left, or for as many modulo `2 ^ 32`;
or it starts at the first entry and asks for all of them; or there are none. -/
def Fits (offset count : ℕ) : Prop :=
  count / sizeofVfile ≤ dir.children.length - offset ∨
    count / sizeofVfile % 2 ^ 32 = dir.children.length - offset ∨
    (offset = 0 ∧ dir.children.length ≤ count / sizeofVfile % 2 ^ 32) ∨
    dir.children = []

/-- What consecutive reads deliver, each from the entry that the one before it has
come to. -/
def enumerate : ℕ → List (ℕ × ℕ) → List ℕ
  | _, [] => []
  | offset, (buffer, count) :: reads =>
      let read := ramfsRead mem dir.toFile buffer offset count
      read.slots ++ enumerate (offset + (read.returned / sizeofVfile).toNat) reads

/-- Every one of them fits. -/
def AllFit : ℕ → List (ℕ × ℕ) → Prop
  | _, [] => True
  | offset, (buffer, count) :: reads =>
      buffer ≠ 0 ∧ dir.Fits offset count ∧
        AllFit (offset + dir.entriesLeft offset count) reads

theorem length_le : dir.children.length ≤ 2 ^ 20 := length_pages_le dir.nodup dir.pages

/-- The number of entries that are copied. -/
def toCopy (count : ℕ) : ℕ := min (dir.size / 4 % 2 ^ 32) (count / sizeofVfile % 2 ^ 32)

theorem toCopy_eq (count : ℕ) :
    dir.toCopy count = min dir.children.length (count / sizeofVfile % 2 ^ 32) := by
  have hlength := dir.length_le
  rw [toCopy, dir.size_eq, Nat.mul_div_cancel_left _ (by decide), Nat.mod_eq_of_lt (by omega)]

theorem fits_iff (offset count : ℕ) :
    dir.Fits offset count ↔ dir.toCopy count = dir.entriesLeft offset count := by
  have hlength := dir.length_le
  have hnil : dir.children = [] ↔ dir.children.length = 0 := List.length_eq_zero_iff.symm
  have hmod := Nat.mod_le (count / sizeofVfile) (2 ^ 32)
  have hsmall : count / sizeofVfile < 2 ^ 32 →
      count / sizeofVfile % 2 ^ 32 = count / sizeofVfile := Nat.mod_eq_of_lt
  rw [Fits, dir.toCopy_eq, entriesLeft, hnil]
  generalize count / sizeofVfile % 2 ^ 32 = requested at *
  generalize count / sizeofVfile = asked at *
  omega

theorem translateEntries_slots (dirents buffer offset n : ℕ) :
    (translateEntries mem dirents buffer offset n).slots =
      (List.range n).map fun i => (i + offset) % 2 ^ 64 := by
  induction n with
  | zero => rfl
  | succ n ih => simp [translateEntries, ih, List.range_succ]

variable {buffer offset count : ℕ}

/-- A directory with a table is translated. -/
theorem ramfsRead_eq (hbuffer : buffer ≠ 0) (htable : dir.privatePtr ≠ 0) :
    ramfsRead mem dir.toFile buffer offset count =
      { translateEntries mem dir.privatePtr buffer offset (dir.toCopy count) with
        returned := asInt (dir.toCopy count * sizeofVfile) } := by
  simp only [ramfsRead, hbuffer, htable, dir.noMount, dir.isDir, ne_eq, not_true_eq_false,
    not_false_eq_true, or_self, if_false, if_true]
  rfl

/-- A read that fits goes through the entries that are left. -/
theorem read_fits (hbuffer : buffer ≠ 0) (hfits : dir.Fits offset count) :
    (ramfsRead mem dir.toFile buffer offset count).returned =
        (dir.entriesLeft offset count * sizeofVfile : ℕ) ∧
      (ramfsRead mem dir.toFile buffer offset count).slots =
        (List.range (dir.entriesLeft offset count)).map (offset + ·) := by
  have hcopy := (dir.fits_iff offset count).mp hfits
  have hlength := dir.length_le
  by_cases htable : dir.privatePtr = 0
  · have hnone : dir.entriesLeft offset count = 0 := by
      have hchildren : dir.children = [] := by
        by_contra hsome
        exact dir.table hsome htable
      simp [entriesLeft, hchildren]
    simp [ramfsRead, htable, hnone, Read.nothing]
  · rw [dir.ramfsRead_eq hbuffer htable, hcopy]
    constructor
    · refine asInt_of_lt ?_
      rw [entriesLeft, sizeofVfile]
      omega
    · rw [translateEntries_slots]
      refine List.map_congr_left ?_
      intro i hi
      rw [List.mem_range, entriesLeft] at hi
      rw [Nat.mod_eq_of_lt (by omega), Nat.add_comm]

/-- The rounds of the loop fill the buffer and nothing else. -/
theorem translateEntries_mem (htakes : dir.Takes buffer offset count) {n : ℕ}
    (hn : n ≤ dir.entriesLeft offset count) :
    (∀ i < n, ∃ child, dir.children[offset + i]? = some child ∧ ∀ b < sizeofVfile,
        (translateEntries mem dir.privatePtr buffer offset n).mem
          (buffer + i * sizeofVfile + b) = mem (child + b)) ∧
      ∀ a, a < buffer ∨ buffer + n * sizeofVfile ≤ a →
        (translateEntries mem dir.privatePtr buffer offset n).mem a = mem a := by
  have hlength := dir.length_le
  have hinMemory := dir.inMemory
  have hroom := htakes.inMemory
  have htable := htakes.table
  have hleft : dir.entriesLeft offset count ≤ dir.children.length - offset := Nat.min_le_left _ _
  have hsize := dir.size_eq
  rw [Apart] at htable
  rw [sizeofVfile] at hroom htable ⊢
  induction n with
  | zero => exact ⟨by omega, fun _ _ => rfl⟩
  | succ n ih =>
      obtain ⟨hfilled, hkept⟩ := ih (by omega)
      have hslot : (n + offset) % 2 ^ 64 = offset + n := by
        rw [Nat.mod_eq_of_lt (by omega), Nat.add_comm]
      obtain ⟨child, hchild⟩ : ∃ child, dir.children[offset + n]? = some child :=
        ⟨_, List.getElem?_eq_getElem (by omega)⟩
      have hmem := List.mem_of_getElem? hchild
      obtain ⟨haligned, hbelow⟩ := dir.pages child hmem
      have hapart := htakes.children child hmem
      rw [Apart, sizeofVfile] at hapart
      have hpointer : readU32 (translateEntries mem dir.privatePtr buffer offset n).mem
          ((dir.privatePtr + 4 * (offset + n)) % 2 ^ 32) = child := by
        rw [Nat.mod_eq_of_lt (by omega), ← dir.listed _ _ hchild]
        refine readU32_congr ?_
        intro k hk
        exact hkept _ (by omega)
      have hcopy : (translateEntries mem dir.privatePtr buffer offset (n + 1)).mem =
          store (translateEntries mem dir.privatePtr buffer offset n).mem (buffer + n * 128)
            (load (translateEntries mem dir.privatePtr buffer offset n).mem child) 128 := by
        simp only [translateEntries, hslot, hpointer, sizeofVfile]
        refine memcpy_eq_store ?_ (by omega) (by omega)
        rw [Apart]
        omega
      rw [hcopy]
      constructor
      · intro i hi
        by_cases hlast : i = n
        · subst hlast
          refine ⟨child, hchild, ?_⟩
          intro b hb
          rw [store_inside hb, load, hkept _ (by omega)]
        · obtain ⟨other, hother, hbytes⟩ := hfilled i (by omega)
          refine ⟨other, hother, ?_⟩
          intro b hb
          rw [store_outside (by omega), hbytes b hb]
      · intro a ha
        rw [store_outside (by omega), hkept a (by omega)]

theorem wholeEntries_iff (htakes : dir.Takes buffer offset count) :
    dir.WholeEntries buffer offset count (ramfsRead mem dir.toFile buffer offset count) ↔
      dir.Fits offset count := by
  constructor
  · intro hwhole
    by_cases htable : dir.privatePtr = 0
    · have hchildren : dir.children = [] := by
        by_contra hsome
        exact dir.table hsome htable
      exact Or.inr (Or.inr (Or.inr hchildren))
    · have hslots := congrArg List.length hwhole.slots
      rw [dir.ramfsRead_eq htakes.notNull htable, translateEntries_slots] at hslots
      rw [dir.fits_iff]
      simpa using hslots
  · intro hfits
    obtain ⟨hreturned, hslots⟩ := dir.read_fits htakes.notNull hfits
    have hcopy := (dir.fits_iff offset count).mp hfits
    by_cases htable : dir.privatePtr = 0
    · have hchildren : dir.children = [] := by
        by_contra hsome
        exact dir.table hsome htable
      have hnone : dir.entriesLeft offset count = 0 := by
        simp [entriesLeft, hchildren]
      refine ⟨hreturned, hslots, by simp [hnone], ?_⟩
      intro a ha
      simp [ramfsRead, htable, Read.nothing]
    · obtain ⟨hfilled, hkept⟩ := dir.translateEntries_mem htakes le_rfl
      rw [← hcopy] at hfilled hkept
      refine ⟨hreturned, hslots, ?_, ?_⟩
      · rw [dir.ramfsRead_eq htakes.notNull htable, ← hcopy]
        exact hfilled
      · rw [dir.ramfsRead_eq htakes.notNull htable, ← hcopy]
        exact hkept

/-- Reads that fit deliver the entries one after the other. -/
theorem enumerate_fits {reads : List (ℕ × ℕ)} (hfit : dir.AllFit offset reads) :
    dir.enumerate offset reads =
      (List.range (min (dir.children.length - offset)
        (reads.map fun read => read.2 / sizeofVfile).sum)).map (offset + ·) := by
  induction reads generalizing offset with
  | nil => simp [enumerate]
  | cons read reads ih =>
      obtain ⟨buffer, count⟩ := read
      obtain ⟨hbuffer, hfits, hrest⟩ := hfit
      obtain ⟨hreturned, hslots⟩ := dir.read_fits hbuffer hfits
      have hentries : ((ramfsRead mem dir.toFile buffer offset count).returned /
          (sizeofVfile : ℤ)).toNat = dir.entriesLeft offset count := by
        rw [hreturned, ← Int.natCast_div, Int.toNat_natCast,
          Nat.mul_div_cancel _ (by decide)]
      rw [enumerate, hentries, hslots, ih hrest, List.map_cons, List.sum_cons]
      have hsum : min (dir.children.length - offset) (count / sizeofVfile +
          (reads.map fun read => read.2 / sizeofVfile).sum) =
          dir.entriesLeft offset count +
            min (dir.children.length - (offset + dir.entriesLeft offset count))
              (reads.map fun read => read.2 / sizeofVfile).sum := by
        rw [entriesLeft]
        generalize count / sizeofVfile = asked
        omega
      rw [hsum, List.range_add, List.map_append, List.map_map]
      congr 2
      funext i
      exact Nat.add_assoc _ _ _

end Directory

/-- A read of a directory returns the whole entries that are left, in order and
without looking at a slot behind them, exactly if it fits; and consecutive reads
that fit deliver each entry once, in order. -/
theorem directory_reads_iff (mem : ℕ → UInt8) (dir : Directory mem) :
    (∀ buffer offset count, dir.Takes buffer offset count →
      (dir.WholeEntries buffer offset count
          (ramfsRead mem dir.toFile buffer offset count) ↔ dir.Fits offset count)) ∧
    ∀ reads, dir.AllFit 0 reads → dir.enumerate 0 reads =
      List.range (min dir.children.length
        (reads.map fun read => read.2 / sizeofVfile).sum) := by
  refine ⟨fun buffer offset count htakes => dir.wholeEntries_iff htakes, ?_⟩
  intro reads hfit
  rw [dir.enumerate_fits hfit]
  simp

/-- Memory with an array of two pointers. -/
def twoPointers : ℕ → UInt8 :=
  writeU32 (writeU32 (fun _ => 0) 0xc0100000 0xc0200000) 0xc0100004 0xc0300000

def twoChildren : Directory twoPointers where
  privatePtr := 0xc0100000
  size := 8
  flags := fsFileIsDir
  children := [0xc0200000, 0xc0300000]
  isDir := by decide
  noMount := by decide
  size_eq := by decide
  table := by decide
  inMemory := by decide
  listed := by
    intro i child hchild
    match i with
    | 0 =>
        obtain rfl : 0xc0200000 = child := by simpa using hchild
        exact (readU32_writeU32_of_disjoint (by decide)).trans (readU32_writeU32_self _ _ _)
    | 1 =>
        obtain rfl : 0xc0300000 = child := by simpa using hchild
        exact readU32_writeU32_self _ _ _
    | i + 2 => simp at hchild
  pages := by decide
  nodup := by decide

theorem takes_twoChildren {offset count : ℕ} (hcount : count ≤ 256) :
    twoChildren.Takes 0xc0400000 offset count := by
  have hentries : twoChildren.entriesLeft offset count ≤ 2 := by
    rw [Directory.entriesLeft, sizeofVfile]
    omega
  have hchildren : twoChildren.children = [0xc0200000, 0xc0300000] := rfl
  have htable : twoChildren.privatePtr = 0xc0100000 ∧ twoChildren.size = 8 := ⟨rfl, rfl⟩
  constructor
  · decide
  · rw [sizeofVfile]
    omega
  · rw [Apart]
    omega
  · rw [hchildren]
    intro child hchild
    simp only [List.mem_cons, List.not_mem_nil, or_false] at hchild
    rw [Apart, sizeofVfile]
    omega

/-- Both entries, and after them none. -/
theorem directory_reads_twoChildren :
    twoChildren.WholeEntries 0xc0400000 0 256
        (ramfsRead twoPointers twoChildren.toFile 0xc0400000 0 256) ∧
      twoChildren.enumerate 0 [(0xc0400000, 128), (0xc0400000, 128)] = [0, 1] := by
  obtain ⟨hread, hreads⟩ := directory_reads_iff twoPointers twoChildren
  exact ⟨(hread 0xc0400000 0 256 (takes_twoChildren (by decide))).mpr (.inl (by decide)),
    hreads [(0xc0400000, 128), (0xc0400000, 128)]
      ⟨by decide, .inl (by decide), by decide, .inl (by decide), trivial⟩⟩

/-- From the second entry on, two entries are copied although one is left. -/
theorem directory_read_behind_the_last :
    ¬ twoChildren.WholeEntries 0xc0400000 1 256
      (ramfsRead twoPointers twoChildren.toFile 0xc0400000 1 256) := by
  intro hwhole
  exact absurd hwhole.returned (by decide)

end KimisOS.RamData
