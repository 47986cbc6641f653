import KimisOS.Memory.HeapMap

/-!
# The blocks of the heap map

A map of free pages and linked blocks.  `heap_alloc` takes the lowest run of free
pages that is long enough, and `heap_free` finds the block around an address by its
links.
-/

namespace KimisOS.HeapMap

/-! ## The first fit -/

/-- The flags of a page of a block: used, with a link to the page before it unless
it is the first, and one to the page behind it unless it is the last. -/
def blockFlags (start sizePgs index : ℕ) : BitVec 8 :=
  kmallocUsed ||| (if index = start then 0 else kmallocLinkLast) |||
    (if index + 1 = start + sizePgs then 0 else kmallocLinkNext)

theorem pageFlags_eq {start sizePgs index : ℕ} (hlow : start ≤ index)
    (hhigh : index < start + sizePgs) :
    pageFlags (index - start) sizePgs = blockFlags start sizePgs index := by
  have hfirst : 0 < index - start ↔ ¬ index = start := by omega
  have hlast : index - start < sizePgs - 1 ↔ ¬ index + 1 = start + sizePgs := by omega
  rw [pageFlags, blockFlags]
  simp only [hfirst, hlast, ite_not]

/-- The number of pages fits in the address space. -/
theorem heapInit_maxIndex_le (sizeBytes heapBase : UInt32) (oldMap : ℕ → BitVec 8) :
    (heapInit sizeBytes oldMap heapBase).maxIndex ≤ 2 ^ 20 :=
  (inv_heapInit sizeBytes heapBase oldMap).bound

/-- In a heap that `heap_init` has built, whatever its map holds by now, a request
that fits gets the lowest run of free pages, and no other entry changes. -/
theorem heapAlloc_first_fit {sizeBytes heapBase : UInt32} {oldMap : ℕ → BitVec 8}
    {heap : Heap} {sizePgs : UInt32}
    (hheap : heap.shape = (heapInit sizeBytes oldMap heapBase).shape)
    (hpos : 0 < sizePgs.toNat) (hfits : Fits heap sizePgs.toNat) :
    ∃ lowest next, FreeRun heap lowest sizePgs.toNat ∧
      (∀ start < lowest, ¬ FreeRun heap start sizePgs.toNat) ∧
      heapAlloc heap sizePgs = some (next, some (heapIndexToAddress heap lowest)) ∧
      next.shape = heap.shape ∧
      ∀ index, getHeapIndex next index =
        if lowest ≤ index ∧ index < lowest + sizePgs.toNat then
          blockFlags lowest sizePgs.toNat index
        else getHeapIndex heap index := by
  have hmax : heap.maxIndex ≤ 2 ^ 20 :=
    (Heap.maxIndex_eq hheap).trans_le (heapInit_maxIndex_le sizeBytes heapBase oldMap)
  have hfirst : heap.heapFirstFree = 0 := by
    rw [Heap.shape, Heap.shape, Prod.mk.injEq, Prod.mk.injEq] at hheap
    exact hheap.2.2
  obtain ⟨lowest, hfree, hlowest, halloc⟩ := heapAlloc_of_fits hmax hfirst hpos hfits
  refine ⟨lowest, _, hfree, hlowest, halloc, markBlock_shape _ _ _ _, ?_⟩
  intro index
  rw [getHeapIndex_markBlock hmax sizePgs.toNat hfree.1]
  by_cases hin : lowest ≤ index ∧ index < lowest + sizePgs.toNat
  · rw [if_pos hin, if_pos hin, pageFlags_eq hin.1 hin.2]
  · rw [if_neg hin, if_neg hin]

/-- A heap with one used page. -/
def oneUsed (sizeBytes heapBase : UInt32) (page : ℕ) : Heap :=
  setHeapIndex (heapInit sizeBytes (fun _ => 0xff) heapBase) page kmallocUsed

theorem oneUsed_shape (sizeBytes heapBase : UInt32) (page : ℕ) :
    (oneUsed sizeBytes heapBase page).shape =
      (heapInit sizeBytes (fun _ => 0xff) heapBase).shape :=
  setHeapIndex_shape _ _ _

/-- Two pages are found behind page 1 of a heap of four. -/
theorem heapAlloc_first_fit_behind :
    ∃ lowest next, heapAlloc (oneUsed 16384 0xc0400000 1) 2 =
      some (next, some (heapIndexToAddress (oneUsed 16384 0xc0400000 1) lowest)) := by
  have hfits : Fits (oneUsed 16384 0xc0400000 1) (2 : UInt32).toNat := by
    refine ⟨2, by decide, ?_⟩
    intro k hk
    change k < 2 at hk
    interval_cases k <;> decide
  obtain ⟨lowest, next, -, -, halloc, -⟩ := heapAlloc_first_fit
    (oneUsed_shape 16384 0xc0400000 1) (by decide) hfits
  exact ⟨lowest, next, halloc⟩

/-! ## Well-formed maps -/

/-- From page `start` on, the map is a concatenation of free pages and blocks. -/
inductive LaidOut (heap : Heap) : ℕ → Prop where
  | done : LaidOut heap heap.maxIndex
  | free {start : ℕ} (hin : start < heap.maxIndex) (hfree : getHeapIndex heap start = 0)
      (hrest : LaidOut heap (start + 1)) : LaidOut heap start
  | block {start sizePgs : ℕ} (hpos : 0 < sizePgs) (hlinked : Linked heap start sizePgs)
      (hrest : LaidOut heap (start + sizePgs)) : LaidOut heap start

/-- The page of the heap that an address lies in, counted from the base on. -/
def Heap.pageOf (heap : Heap) (addr : UInt32) : ℕ :=
  (addr - heap.heapBase).toNat / pageSizeBytes

/-- The second loop of `heap_free` ends within some rounds. -/
def releaseEnds : ℕ → ℕ → Heap → Prop
  | 0, _, _ => False
  | rounds + 1, index, heap =>
      getHeapIndex heap index &&& kmallocLinkNext = 0 ∨
        releaseEnds rounds (index + 1) (setHeapIndex heap index 0)

/-- `heap_free` ends, frees the block around the address, and frees nothing when there
is none. -/
structure FreesBlock (heap : Heap) (addr : UInt32) : Prop where
  ends : releaseEnds (heap.maxIndex + 1) (blockStart heap (freeIndex heap addr)) heap
  inside : ∀ start sizePgs, 0 < sizePgs → Linked heap start sizePgs →
    start ≤ heap.pageOf addr → heap.pageOf addr < start + sizePgs →
      ∀ index, getHeapIndex (heapFree heap addr) index =
        if start ≤ index ∧ index < start + sizePgs then 0 else getHeapIndex heap index
  outside : heap.maxIndex ≤ heap.pageOf addr ∨ getHeapIndex heap (heap.pageOf addr) = 0 →
    ∀ index, getHeapIndex (heapFree heap addr) index = getHeapIndex heap index
  laidOut : LaidOut (heapFree heap addr) 0

section Blocks

variable {heap : Heap} {start sizePgs : ℕ}

theorem Linked.used (hlinked : Linked heap start sizePgs) {index : ℕ}
    (hlow : start ≤ index) (hhigh : index < start + sizePgs) :
    getHeapIndex heap index = pageFlags (index - start) sizePgs := by
  have hentry := hlinked.2 (index - start) (by omega)
  rwa [Nat.add_sub_cancel' hlow] at hentry

theorem Linked.ne_zero (hlinked : Linked heap start sizePgs) {index : ℕ}
    (hlow : start ≤ index) (hhigh : index < start + sizePgs) :
    getHeapIndex heap index ≠ 0 := by
  rw [hlinked.used hlow hhigh]
  exact pageFlags_ne_zero _ _

/-- A block that starts inside another one is that one. -/
theorem Linked.start_eq (hlinked : Linked heap start sizePgs) {other count : ℕ}
    (hother : Linked heap other count) (hpos : 0 < count) (hlow : start ≤ other)
    (hhigh : other < start + sizePgs) : other = start := by
  have hentry := hlinked.used hlow hhigh
  rw [hother.used le_rfl (by omega), Nat.sub_self] at hentry
  have hfirst : ¬ pageFlags 0 count &&& kmallocLinkLast ≠ 0 :=
    fun hlast => absurd ((pageFlags_linkLast 0 count).mp hlast) (Nat.lt_irrefl 0)
  rw [hentry, pageFlags_linkLast] at hfirst
  omega

/-- Two blocks with the same first page have the same last page. -/
theorem Linked.size_le (hlinked : Linked heap start sizePgs) {count : ℕ}
    (hother : Linked heap start count) (hpos : 0 < count) : sizePgs ≤ count := by
  by_contra hlonger
  have hentry := hlinked.used (Nat.le_add_right start (count - 1)) (by omega)
  rw [hother.used (Nat.le_add_right start (count - 1)) (by omega),
    Nat.add_sub_cancel_left] at hentry
  have hlast : pageFlags (count - 1) count &&& kmallocLinkNext = 0 := by
    rw [pageFlags_linkNext]
    omega
  rw [hentry, pageFlags_linkNext] at hlast
  omega

theorem Linked.size_eq (hlinked : Linked heap start sizePgs) {count : ℕ}
    (hother : Linked heap start count) (hpos : 0 < sizePgs) (hcount : 0 < count) :
    sizePgs = count :=
  Nat.le_antisymm (hlinked.size_le hother hcount) (hother.size_le hlinked hpos)

/-- The page is free, or it lies in a block. -/
theorem LaidOut.cases_page (hlaid : LaidOut heap start) {index : ℕ}
    (hlow : start ≤ index) (hin : index < heap.maxIndex) :
    getHeapIndex heap index = 0 ∨ ∃ first sizePgs, start ≤ first ∧ 0 < sizePgs ∧
      Linked heap first sizePgs ∧ first ≤ index ∧ index < first + sizePgs := by
  induction hlaid with
  | done => omega
  | @free start hbelow hfree hrest ih =>
      by_cases hhere : index = start
      · exact .inl (hhere ▸ hfree)
      · rcases ih (by omega) with hzero | ⟨first, sizePgs, hfirst, hblock⟩
        · exact .inl hzero
        · exact .inr ⟨first, sizePgs, by omega, hblock⟩
  | @block start sizePgs hpos hlinked hrest ih =>
      by_cases hhere : index < start + sizePgs
      · exact .inr ⟨start, sizePgs, le_rfl, hpos, hlinked, hlow, hhere⟩
      · rcases ih (by omega) with hzero | ⟨first, count, hfirst, hblock⟩
        · exact .inl hzero
        · exact .inr ⟨first, count, by omega, hblock⟩

theorem LaidOut.congr (hlaid : LaidOut heap start) {next : Heap}
    (hshape : next.shape = heap.shape)
    (hsame : ∀ index, start ≤ index → getHeapIndex next index = getHeapIndex heap index) :
    LaidOut next start := by
  have hmax := Heap.maxIndex_eq hshape
  induction hlaid with
  | done =>
      rw [← hmax]
      exact .done
  | @free start hin hfree hrest ih =>
      refine .free (hmax.symm ▸ hin) ((hsame start le_rfl).trans hfree) (ih ?_)
      intro index hindex
      exact hsame index (by omega)
  | @block start sizePgs hpos hlinked hrest ih =>
      refine .block hpos (linked_of_unchanged hshape.symm hlinked fun k _ => ?_) (ih ?_)
      · exact hsame (start + k) (by omega)
      · intro index hindex
        exact hsame index (by omega)

/-- Free pages in front of a well-formed rest. -/
theorem LaidOut.free_run {next : Heap} {count : ℕ} (hrest : LaidOut next (start + count))
    (hend : start + count ≤ next.maxIndex)
    (hfree : ∀ index, start ≤ index → index < start + count → getHeapIndex next index = 0) :
    LaidOut next start := by
  induction count generalizing start with
  | zero => exact hrest
  | succ count ih =>
      refine .free (by omega) (hfree start le_rfl (by omega)) (ih ?_ (by omega) ?_)
      · rwa [Nat.add_right_comm, Nat.add_assoc]
      · intro index hlow hhigh
        exact hfree index (by omega) (by omega)

/-- A map stays well formed when one of its blocks becomes free. -/
theorem LaidOut.release {first count : ℕ} (hlaid : LaidOut heap start)
    (hfirst : start ≤ first) (hpos : 0 < count) (hlinked : Linked heap first count)
    {next : Heap} (hshape : next.shape = heap.shape)
    (hnext : ∀ index, getHeapIndex next index =
      if first ≤ index ∧ index < first + count then 0 else getHeapIndex heap index) :
    LaidOut next start := by
  have hmax := Heap.maxIndex_eq hshape
  have hkept : ∀ index, ¬ (first ≤ index ∧ index < first + count) →
      getHeapIndex next index = getHeapIndex heap index := by
    intro index hout
    rw [hnext, if_neg hout]
  induction hlaid with
  | done =>
      have hend := hlinked.1
      omega
  | @free start hin hfree hrest ih =>
      have hne : start ≠ first := by
        rintro rfl
        exact hlinked.ne_zero le_rfl (by omega) hfree
      refine .free (hmax.symm ▸ hin) ?_ (ih (by omega))
      rw [hkept start (by omega), hfree]
  | @block start sizePgs hsize hblock hrest ih =>
      by_cases hsame : first < start + sizePgs
      · -- the block that becomes free
        obtain rfl : first = start := hblock.start_eq hlinked hpos hfirst hsame
        obtain rfl : sizePgs = count := hblock.size_eq hlinked hsize hpos
        refine LaidOut.free_run (hrest.congr hshape ?_) (hmax.symm ▸ hlinked.1) ?_
        · intro index hindex
          exact hkept index (by omega)
        · intro index hlow hhigh
          rw [hnext, if_pos ⟨hlow, hhigh⟩]
      · refine .block hsize (linked_of_unchanged hshape.symm hblock fun k hk => ?_)
          (ih (by omega))
        exact hkept (start + k) (by omega)

/-! ## `heap_free` -/

/-- The backward loop goes back to the first page of a block. -/
theorem blockStart_inside (hlinked : Linked heap start sizePgs) {k : ℕ} (hk : k < sizePgs) :
    blockStart heap (start + k) = start := by
  induction k with
  | zero => exact blockStart_of_linked hlinked hk
  | succ k ih =>
      have hback : getHeapIndex heap (start + k + 1) &&& kmallocLinkLast ≠ 0 := by
        rw [Nat.add_assoc, hlinked.2 (k + 1) hk, pageFlags_linkLast]
        exact Nat.succ_pos k
      rw [← Nat.add_assoc, blockStart, if_pos hback]
      exact ih (by omega)

theorem blockStart_of_free {index : ℕ} (hfree : getHeapIndex heap index = 0) :
    blockStart heap index = index := by
  have hnot : ¬ getHeapIndex heap index &&& kmallocLinkLast ≠ 0 := by
    rw [hfree]
    decide
  cases index with
  | zero => rw [blockStart, if_neg hnot]
  | succ index => rw [blockStart, if_neg hnot]

/-- Behind the last page every entry reads as free, so the loop ends there. -/
theorem releaseEnds_of_lt {rounds index : ℕ} (hpos : 0 < rounds)
    (hrounds : heap.maxIndex < index + rounds) : releaseEnds rounds index heap := by
  induction rounds generalizing index heap with
  | zero => omega
  | succ rounds ih =>
      by_cases hin : index < heap.maxIndex
      · right
        refine ih (by omega) ?_
        rw [setHeapIndex_maxIndex]
        omega
      · left
        rw [getHeapIndex_of_ge heap (Nat.not_lt.mp hin)]
        decide

theorem freeIndex_eq (heap : Heap) (addr : UInt32) :
    freeIndex heap addr =
      if heap.pageOf addr < 2 ^ 19 then heap.pageOf addr
      else 2 ^ 32 - 2 ^ 20 + heap.pageOf addr := by
  have hhalf : (addr - heap.heapBase).toNat < 2 ^ 31 ↔ heap.pageOf addr < 2 ^ 19 := by
    rw [Heap.pageOf, pageSizeBytes]
    omega
  rw [freeIndex]
  by_cases hlow : heap.pageOf addr < 2 ^ 19
  · rw [if_pos hlow]
    exact if_pos (hhalf.mpr hlow)
  · rw [if_neg hlow]
    exact if_neg (mt hhalf.mp hlow)

/-- 2 GiB or more above the base nothing is freed. -/
theorem heapFree_far (hmax : heap.maxIndex ≤ 2 ^ 20) {addr : UInt32}
    (hfar : 2 ^ 19 ≤ heap.pageOf addr) : heapFree heap addr = heap := by
  simp only [heapFree]
  rw [freeIndex_eq, if_neg (Nat.not_lt.mpr hfar), if_pos (by omega)]

/-- An address in no block changes no entry. -/
theorem heapFree_free (hmax : heap.maxIndex ≤ 2 ^ 20) {addr : UInt32}
    (hfree : getHeapIndex heap (heap.pageOf addr) = 0) (index : ℕ) :
    getHeapIndex (heapFree heap addr) index = getHeapIndex heap index := by
  by_cases hfar : 2 ^ 19 ≤ heap.pageOf addr
  · rw [heapFree_far hmax hfar]
  simp only [heapFree]
  rw [freeIndex_eq, if_pos (Nat.not_le.mp hfar)]
  by_cases hbehind : heap.pageOf addr > heap.maxIndex
  · rw [if_pos hbehind]
  have hlast : (0 : BitVec 8) &&& kmallocLinkNext = 0 := by decide
  rw [if_neg hbehind, blockStart_of_free hfree, releaseFrom]
  simp only [hfree, hlast, if_true]
  by_cases hindex : index = heap.pageOf addr
  · by_cases hin : index < heap.maxIndex
    · rw [hindex, getHeapIndex_setHeapIndex_self _ (hindex ▸ hin) (by decide), hfree]
    · rw [getHeapIndex_of_ge _ (by rw [setHeapIndex_maxIndex]; omega),
        getHeapIndex_of_ge heap (Nat.not_lt.mp hin)]
  · exact getHeapIndex_setHeapIndex_of_ne heap 0 hindex

/-- An address inside a block frees that block. -/
theorem heapFree_inside (hlinked : Linked heap start sizePgs) {addr : UInt32}
    (hnear : heap.pageOf addr < 2 ^ 19) (hlow : start ≤ heap.pageOf addr)
    (hhigh : heap.pageOf addr < start + sizePgs) (index : ℕ) :
    getHeapIndex (heapFree heap addr) index =
      if start ≤ index ∧ index < start + sizePgs then 0 else getHeapIndex heap index := by
  have hend := hlinked.1
  have hback : blockStart heap (heap.pageOf addr) = start := by
    have hinside := blockStart_inside hlinked (show heap.pageOf addr - start < sizePgs by omega)
    rwa [Nat.add_sub_cancel' hlow] at hinside
  simp only [heapFree]
  rw [freeIndex_eq, if_pos hnear, if_neg (by omega), hback]
  exact getHeapIndex_releaseFrom (heap.maxIndex + 1) 0 heap (by omega) (by omega) hend
    (fun l _ hl => hlinked.2 l hl) index

end Blocks

/-- `heap_free` of any address frees exactly the block around it, unless that address is
used and lies 2 GiB or more above the base of the heap. -/
theorem heapFree_exact_iff {sizeBytes heapBase : UInt32} {oldMap : ℕ → BitVec 8}
    {heap : Heap} (hheap : heap.shape = (heapInit sizeBytes oldMap heapBase).shape)
    (hlaid : LaidOut heap 0) (addr : UInt32) :
    FreesBlock heap addr ↔
      (2 ^ 19 ≤ heap.pageOf addr → getHeapIndex heap (heap.pageOf addr) = 0) := by
  have hmax : heap.maxIndex ≤ 2 ^ 20 :=
    (Heap.maxIndex_eq hheap).trans_le (heapInit_maxIndex_le sizeBytes heapBase oldMap)
  have hends := releaseEnds_of_lt (Nat.succ_pos heap.maxIndex)
    (show heap.maxIndex < blockStart heap (freeIndex heap addr) + (heap.maxIndex + 1) by omega)
  constructor
  · intro hfrees hfar
    by_contra hused
    have hin : heap.pageOf addr < heap.maxIndex := by
      by_contra hbehind
      exact hused (getHeapIndex_of_ge heap (Nat.not_lt.mp hbehind))
    obtain hfree | ⟨start, sizePgs, -, hpos, hlinked, hlow, hhigh⟩ :=
      hlaid.cases_page (Nat.zero_le _) hin
    · exact hused hfree
    · have hgone := hfrees.inside start sizePgs hpos hlinked hlow hhigh (heap.pageOf addr)
      rw [if_pos ⟨hlow, hhigh⟩, heapFree_far hmax hfar] at hgone
      exact hused hgone
  · intro hcondition
    have hinside : ∀ start sizePgs, 0 < sizePgs → Linked heap start sizePgs →
        start ≤ heap.pageOf addr → heap.pageOf addr < start + sizePgs →
          ∀ index, getHeapIndex (heapFree heap addr) index =
            if start ≤ index ∧ index < start + sizePgs then 0
            else getHeapIndex heap index := by
      intro start sizePgs _ hlinked hlow hhigh
      refine heapFree_inside hlinked ?_ hlow hhigh
      by_contra hfar
      exact hlinked.ne_zero hlow hhigh (hcondition (Nat.not_lt.mp hfar))
    have houtside : heap.maxIndex ≤ heap.pageOf addr ∨
        getHeapIndex heap (heap.pageOf addr) = 0 →
          ∀ index, getHeapIndex (heapFree heap addr) index = getHeapIndex heap index := by
      intro hcase
      exact heapFree_free hmax (hcase.elim (getHeapIndex_of_ge heap) id)
    refine ⟨hends, hinside, houtside, ?_⟩
    by_cases hin : heap.pageOf addr < heap.maxIndex
    · rcases hlaid.cases_page (Nat.zero_le _) hin with
        hfree | ⟨start, sizePgs, -, hpos, hlinked, hlow, hhigh⟩
      · exact hlaid.congr (heapFree_shape heap addr) fun index _ => houtside (.inr hfree) index
      · exact hlaid.release (Nat.zero_le start) hpos hlinked (heapFree_shape heap addr)
          (hinside start sizePgs hpos hlinked hlow hhigh)
    · exact hlaid.congr (heapFree_shape heap addr) fun index _ =>
        houtside (.inl (Nat.not_lt.mp hin)) index

/-! ## A heap with one block -/

section OneUsed

variable {sizeBytes heapBase : UInt32} {page : ℕ}

theorem getHeapIndex_heapInit (sizeBytes heapBase : UInt32) (oldMap : ℕ → BitVec 8)
    (index : ℕ) : getHeapIndex (heapInit sizeBytes oldMap heapBase) index = 0 := by
  rw [getHeapIndex]
  by_cases hin : index ≥ (heapInit sizeBytes oldMap heapBase).maxIndex
  · rw [if_pos hin]
  · have hbyte : index / 2 < (heapInit sizeBytes oldMap heapBase).heapMapSize := by
      rw [Heap.maxIndex] at hin
      omega
    have hzero : (heapInit sizeBytes oldMap heapBase).heapMap (index / 2) = 0 := if_pos hbyte
    rw [if_neg hin, hzero, BitVec.ofNat_eq_ofNat, BitVec.zero_ushiftRight,
      BitVec.zero_and]

theorem oneUsed_free {index : ℕ} (hne : index ≠ page) :
    getHeapIndex (oneUsed sizeBytes heapBase page) index = 0 := by
  rw [oneUsed, getHeapIndex_setHeapIndex_of_ne _ _ hne, getHeapIndex_heapInit]

theorem oneUsed_used (hpage : page < (oneUsed sizeBytes heapBase page).maxIndex) :
    getHeapIndex (oneUsed sizeBytes heapBase page) page = kmallocUsed := by
  rw [oneUsed, setHeapIndex_maxIndex] at hpage
  exact getHeapIndex_setHeapIndex_self _ hpage (by decide)

theorem oneUsed_laidOut (hpage : page < (oneUsed sizeBytes heapBase page).maxIndex) :
    LaidOut (oneUsed sizeBytes heapBase page) 0 := by
  have hlinked : Linked (oneUsed sizeBytes heapBase page) page 1 := by
    refine ⟨hpage, fun k hk => ?_⟩
    obtain rfl : k = 0 := by omega
    rw [Nat.add_zero, oneUsed_used hpage]
    decide
  have hbehind : LaidOut (oneUsed sizeBytes heapBase page) (page + 1) := by
    refine @LaidOut.free_run (page + 1) _
      ((oneUsed sizeBytes heapBase page).maxIndex - (page + 1)) ?_ (by omega) ?_
    · rw [Nat.add_sub_cancel' hpage]
      exact .done
    · intro index hlow _
      exact oneUsed_free (by omega)
  refine @LaidOut.free_run 0 _ page ?_ (by omega) ?_
  · rw [Nat.zero_add]
    exact .block Nat.one_pos hlinked hbehind
  · intro index _ hhigh
    exact oneUsed_free (by omega)

end OneUsed

/-- An address inside page 1 frees it. -/
theorem heapFree_exact_inside : FreesBlock (oneUsed 16384 0xc0400000 1) 0xc0401005 :=
  (heapFree_exact_iff (oneUsed_shape _ _ _) (oneUsed_laidOut (by decide)) _).mpr
    fun hfar => absurd hfar (by decide)

/-- In a heap of more than 2 GiB, the page at 2 GiB is not freed. -/
theorem heapFree_keeps_far :
    LaidOut (oneUsed 0x80002000 0x400000 0x80000) 0 ∧
      ¬ FreesBlock (oneUsed 0x80002000 0x400000 0x80000) 0x80400000 := by
  have hpage : 0x80000 < (oneUsed 0x80002000 0x400000 0x80000).maxIndex := by
    rw [oneUsed, setHeapIndex_maxIndex]
    decide
  have haddr : (oneUsed 0x80002000 0x400000 0x80000).pageOf 0x80400000 = 0x80000 := by
    have hbase : (oneUsed 0x80002000 0x400000 0x80000).heapBase = 0x400000 := by
      have hshape := oneUsed_shape 0x80002000 0x400000 0x80000
      rw [Heap.shape, Heap.shape, Prod.mk.injEq, Prod.mk.injEq] at hshape
      exact hshape.2.1
    rw [Heap.pageOf, hbase]
    decide
  refine ⟨oneUsed_laidOut hpage, fun hfrees => ?_⟩
  have hfar := (heapFree_exact_iff (oneUsed_shape _ _ _) (oneUsed_laidOut hpage) _).mp hfrees
  rw [haddr, oneUsed_used hpage] at hfar
  exact absurd (hfar le_rfl) (by decide)

end KimisOS.HeapMap
