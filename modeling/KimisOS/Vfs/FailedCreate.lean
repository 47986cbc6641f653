import KimisOS.Vfs.RamCreate

/-!
# Creations that fail

`ramfs_create` makes the array of the directory longer before it takes the page of
the new file, and does not take that back.  With an empty slot it writes the new file
without looking whether there is one.
-/

namespace KimisOS.RamData

open KimisOS.ByteStore
open KimisOS.Fat32
open KimisOS.Vfs

/-- A directory with its children, which have pages of their own behind the first
page of memory.  A slot is empty or has a pointer to one of them. -/
structure Slots (mem : ℕ → UInt8) (children : Set ℕ) (root : File) : Prop where
  isDir : root.flags &&& fsFileIsDir ≠ 0
  placed : root.Placed
  table : root.privatePtr = 0 ∨ 4096 ≤ root.privatePtr
  pages : ∀ child ∈ children, 4096 ≤ child
  filled : ∀ i < root.size / 4, readU32 mem (root.privatePtr + 4 * i) = 0 ∨
    readU32 mem (root.privatePtr + 4 * i) ∈ children

/-- The directory is as it was: its size, the array and its contents, every lookup;
and no slot has a pointer that was never written. -/
structure AsBefore (mem : ℕ → UInt8) (children : Set ℕ) (root : File) (created : Created) :
    Prop where
  size : created.parent.size = root.size
  place : created.parent.privatePtr = root.privatePtr
  array : ∀ p < root.size, created.mem (root.privatePtr + p) = mem (root.privatePtr + p)
  lookups : ∀ subname, searchDir created.mem subname created.parent =
    searchDir mem subname root
  filled : ∀ i < created.parent.size / 4,
    readU32 created.mem (created.parent.privatePtr + 4 * i) = 0 ∨
      readU32 created.mem (created.parent.privatePtr + 4 * i) ∈ children

/-- The array is made longer and the page of the file is not there: no slot is empty,
the array has room in its pages or gets more of them, and the second `kmalloc`
fails. -/
def LosesPage (mem : ℕ → UInt8) (root : File) (kmalloc : ℕ → ℕ) (newFile : ℕ) : Prop :=
  emptySlot mem root.privatePtr (root.size / 4) 0 = none ∧
    (pagesOf root.size = pagesOf (root.size + 4) ∨
      kmalloc (pagesOf (root.size + 4)) ≠ 0) ∧
    newFile = 0

variable {mem mem' : ℕ → UInt8} {children : Set ℕ} {root : File}

/-! ## Memory that differs in the first page only -/

theorem bytes_of_readU32_eq_zero {address : ℕ} (hzero : readU32 mem address = 0) :
    ∀ k < 4, mem (address + k) = 0 := by
  rw [readU32] at hzero
  intro k hk
  rw [← UInt8.toNat_inj, UInt8.toNat_zero]
  interval_cases k
  · rw [Nat.add_zero]
    omega
  · omega
  · omega
  · omega

theorem sameString_congr {address : ℕ} (hsame : ∀ a, address ≤ a → mem' a = mem a)
    (str2 : CString) : sameString mem' address str2 = sameString mem address str2 := by
  induction str2 generalizing address with
  | nil => simp only [sameString, hsame address le_rfl]
  | cons c str2 ih =>
      have hrest := ih fun a ha => hsame a (Nat.le_of_succ_le ha)
      simp only [sameString, hsame address le_rfl, hrest]

theorem searchFrom_congr {table rounds i : ℕ} {subname : CString}
    (hpointers : ∀ j < rounds, readU32 mem' (table + 4 * (i + j)) =
      readU32 mem (table + 4 * (i + j)))
    (hnames : ∀ j < rounds, readU32 mem (table + 4 * (i + j)) ≠ 0 →
      sameString mem' (readU32 mem (table + 4 * (i + j))) subname =
        sameString mem (readU32 mem (table + 4 * (i + j))) subname) :
    searchFrom mem' table subname rounds i = searchFrom mem table subname rounds i := by
  induction rounds generalizing i with
  | zero => rfl
  | succ rounds ih =>
      have hpointer := hpointers 0 (Nat.succ_pos rounds)
      have hname := hnames 0 (Nat.succ_pos rounds)
      rw [Nat.add_zero] at hpointer hname
      have hrest : searchFrom mem' table subname rounds (i + 1) =
          searchFrom mem table subname rounds (i + 1) := by
        refine ih ?_ ?_
        · intro j hj
          have hnext := hpointers (j + 1) (Nat.succ_lt_succ hj)
          rwa [Nat.add_comm j 1, ← Nat.add_assoc] at hnext
        · intro j hj
          have hnext := hnames (j + 1) (Nat.succ_lt_succ hj)
          rwa [Nat.add_comm j 1, ← Nat.add_assoc] at hnext
      rw [searchFrom, searchFrom, hpointer, hrest]
      by_cases hnull : readU32 mem (table + 4 * i) = 0
      · simp [hnull]
      · simp [hname hnull]

/-- A directory does not see what is written in the first page. -/
theorem Slots.asBefore (hslots : Slots mem children root)
    (harray : ∀ p < root.size, mem' (root.privatePtr + p) = mem (root.privatePtr + p))
    (hpages : ∀ a, 4096 ≤ a → mem' a = mem a) (returned : ℕ) :
    AsBefore mem children root ⟨mem', root, returned⟩ := by
  have hpointers : ∀ i < root.size / 4, readU32 mem' (root.privatePtr + 4 * i) =
      readU32 mem (root.privatePtr + 4 * i) := by
    intro i hi
    refine readU32_congr ?_
    intro k hk
    rw [Nat.add_assoc]
    exact harray _ (by omega)
  refine ⟨rfl, rfl, harray, ?_, ?_⟩
  · intro subname
    rw [searchDir, searchDir]
    split
    · rfl
    · refine searchFrom_congr ?_ ?_
      · intro j hj
        rw [Nat.zero_add]
        exact hpointers j hj
      · intro j hj hnull
        rw [Nat.zero_add] at hnull ⊢
        have hchild := hslots.pages _ ((hslots.filled j hj).resolve_left hnull)
        exact sameString_congr (fun a ha => hpages a (hchild.trans ha)) subname
  · intro i hi
    dsimp only at hi ⊢
    rw [hpointers i hi]
    exact hslots.filled i hi

/-! ## Failing calls -/

variable {path : CString} {flags ramfsOps newFile : ℕ} {kmalloc : ℕ → ℕ}

/-- Without a page, the writes to an empty slot and to the null pointer change
nothing outside the first page. -/
theorem Slots.nullFile (hslots : Slots mem children root) {slot : ℕ}
    (hempty : emptySlot mem root.privatePtr (root.size / 4) 0 = some slot) (returned : ℕ) :
    AsBefore mem children root
      ⟨writeU32 (writeU32 (initFile mem (dropSlash path) flags 0)
        (root.privatePtr + 4 * slot) 0) (0 + fileopsOffset) ramfsOps, root, returned⟩ := by
  obtain ⟨-, hslot, hzero⟩ := emptySlot_some hempty
  have hbytes := bytes_of_readU32_eq_zero hzero
  have htable : 4096 ≤ root.privatePtr := by
    refine hslots.table.resolve_left ?_
    intro hnull
    rw [hslots.placed.contents hnull] at hslot
    omega
  have hinit : ∀ a, 4096 ≤ a → initFile mem (dropSlash path) flags 0 a = mem a := by
    intro a ha
    simp only [initFile, strcpy, if_true, writeU16, flagsOffset, sizeofVfile]
    rw [store_outside (by omega), store_outside (by omega)]
  have hsame : ∀ a, 4096 ≤ a →
      writeU32 (writeU32 (initFile mem (dropSlash path) flags 0)
        (root.privatePtr + 4 * slot) 0) (0 + fileopsOffset) ramfsOps a = mem a := by
    intro a ha
    rw [writeU32, fileopsOffset, store_outside (by omega)]
    by_cases hin : root.privatePtr + 4 * slot ≤ a ∧ a < root.privatePtr + 4 * slot + 4
    · obtain ⟨k, rfl⟩ := Nat.exists_eq_add_of_le hin.1
      rw [writeU32, store_inside (by omega), hbytes k (by omega), Nat.zero_div]
      rfl
    · rw [writeU32, store_outside (by omega), hinit a ha]
  exact hslots.asBefore (fun p hp => hsame _ (by omega)) hsame returned

/-- A creation that returns 0 leaves the directory as it was exactly if the array was
not made longer for a page that is not there. -/
theorem failed_create_iff (mem : ℕ → UInt8) (children : Set ℕ) (root : File)
    (hslots : Slots mem children root) (path : CString) (flags ramfsOps : ℕ)
    (kmalloc : ℕ → ℕ) (newFile : ℕ) :
    ((ramfsCreate mem root path flags ramfsOps kmalloc newFile).returned = 0 →
        AsBefore mem children root
          (ramfsCreate mem root path flags ramfsOps kmalloc newFile)) ↔
      ¬ LosesPage mem root kmalloc newFile := by
  have hsmall := hslots.placed.small
  have hword : (root.size + 4) % 2 ^ 32 = root.size + 4 := Nat.mod_eq_of_lt (by omega)
  have hnewPages := (pagesOf_word (root.size + 4) (by omega)).1
  have holdPages := (pagesOf_word root.size (by omega)).2
  rw [ramfsCreate, if_neg hslots.isDir, LosesPage]
  cases hempty : emptySlot mem root.privatePtr (root.size / 4) 0 with
  | some slot =>
      simp only [reduceCtorEq, false_and, not_false_eq_true, iff_true]
      rintro rfl
      exact hslots.nullFile hempty 0
  | none =>
      simp only [true_and, hword, ramfsResize, hnewPages, holdPages,
        if_neg (show ¬ root.size + 4 = root.size by omega)]
      by_cases hpages : pagesOf root.size = pagesOf (root.size + 4)
      · simp only [hpages, if_true, true_or, true_and]
        by_cases hnull : newFile = 0
        · simp only [hnull, if_true, if_neg (show ¬ root.size + 4 = 0 by omega),
            not_true_eq_false, iff_false, forall_const]
          intro hsame
          have hlength := hsame.size
          dsimp only at hlength
          omega
        · simp [hnull]
      · simp only [hpages, if_false, false_or]
        by_cases hblock : kmalloc (pagesOf (root.size + 4)) = 0
        · simp only [hblock, if_true, ne_eq, not_true_eq_false, false_and,
            not_false_eq_true, iff_true, forall_const]
          exact hslots.asBefore (fun p hp => rfl) (fun a ha => rfl) 0
        · by_cases hnull : newFile = 0
          · simp only [hblock, hnull, if_true, if_false,
              if_neg (show ¬ root.size + 4 = 0 by omega), ne_eq, not_false_eq_true,
              and_self, not_true_eq_false, iff_false, forall_const]
            intro hsame
            have hlength := hsame.size
            dsimp only at hlength
            omega
          · simp [hblock, hnull]

/-- An empty directory. -/
def noChildren : File := ⟨0, 0, fsFileIsDir⟩

theorem slots_noChildren (mem : ℕ → UInt8) : Slots mem ∅ noChildren where
  isDir := by decide
  placed := ⟨by decide, fun _ => rfl, by decide⟩
  table := .inl rfl
  pages := by simp
  filled := by
    intro i hi
    exact absurd hi (Nat.not_lt_zero i)

/-- Without memory for the array, nothing happens. -/
theorem failed_create_no_memory :
    AsBefore (fun _ => 0) ∅ noChildren
      (ramfsCreate (fun _ => 0) noChildren [0x61] 0 0xc0001000 (fun _ => 0) 0) :=
  (failed_create_iff (fun _ => 0) ∅ noChildren (slots_noChildren _) [0x61] 0 0xc0001000
    (fun _ => 0) 0).mpr (by simp [LosesPage, noChildren, pagesOf]) (by decide)

/-- With a page for the array and none for the file, the array has a slot that was
never written. -/
theorem failed_create_grows_array :
    ¬ ((ramfsCreate (fun _ => 0) noChildren [0x61] 0 0xc0001000 (fun _ => 0xc0100000)
          0).returned = 0 →
        AsBefore (fun _ => 0) ∅ noChildren
          (ramfsCreate (fun _ => 0) noChildren [0x61] 0 0xc0001000 (fun _ => 0xc0100000)
            0)) := by
  intro hkeeps
  exact absurd (hkeeps (by decide)).size (by decide)

end KimisOS.RamData
