import KimisOS.Core.Run

/-!
# The kernel heap

Every page of the heap has a four-bit entry in `heap_map`, two to a byte.
`heap_alloc` searches for a run of free entries and links the pages of a
block; `heap_free` follows the links and clears them.

The search reads entries through `get_heap_index`, which answers "free" past
the end of the map, and encodes failure as a start page of 0.  Both are kept
here as they are in the source.
-/

namespace KimisOS.HeapMap

open KimisOS.Run

def pageSizeBytes : ℕ := 4096

def kmallocUsed : BitVec 8 := 1
def kmallocLinkNext : BitVec 8 := 2
def kmallocLinkLast : BitVec 8 := 4

/-- The globals of the heap. -/
structure Heap where
  heapMap : ℕ → BitVec 8
  heapMapSize : ℕ
  heapBase : UInt32
  heapFirstFree : ℕ

/-- `heap_map_size * HEAP_ENTRIES_PER_INDEX`, the number of pages. -/
def Heap.maxIndex (heap : Heap) : ℕ := heap.heapMapSize * 2

def getHeapIndex (heap : Heap) (index : ℕ) : BitVec 8 :=
  if index ≥ heap.maxIndex then 0
  else (heap.heapMap (index / 2) >>> (index % 2 * 4)) &&& 0xf

def setHeapIndex (heap : Heap) (index : ℕ) (flags : BitVec 8) : Heap :=
  if index ≥ heap.maxIndex then heap
  else
    let byte := index / 2
    let shift := index % 2 * 4
    let mask : BitVec 8 := 0xf <<< shift
    { heap with
      heapMap := Function.update heap.heapMap byte
        ((heap.heapMap byte &&& ~~~mask) ||| ((flags <<< shift) &&& mask)) }

def heapIndexToAddress (heap : Heap) (index : ℕ) : UInt32 :=
  heap.heapBase + UInt32.ofNat (index * pageSizeBytes)

/-- `heap_init`, given the two blocks `kmalloc` returned: the map, with
whatever it contains, and the base of the heap. -/
def heapInit (sizeBytes : UInt32) (oldMap : ℕ → BitVec 8)
    (heapBase : UInt32) : Heap :=
  let heapPages := ((sizeBytes.toNat + pageSizeBytes - 1) % 2 ^ 32) /
    pageSizeBytes
  { heapMap := fun byte => if byte < heapPages / 2 then 0 else oldMap byte
    heapMapSize := heapPages / 2
    heapBase := heapBase
    heapFirstFree := 0 }

/-! ## Entries of the map -/

theorem nibble_self (byte flags : BitVec 8) (shift : ℕ)
    (hshift : shift = 0 ∨ shift = 4) (hflags : flags &&& 0xf = flags) :
    (((byte &&& ~~~((0xf : BitVec 8) <<< shift)) |||
      ((flags <<< shift) &&& ((0xf : BitVec 8) <<< shift))) >>> shift) &&& 0xf =
        flags := by
  rw [← hflags]
  ext bit hbit
  rcases hshift with rfl | rfl <;> interval_cases bit <;> simp

theorem nibble_other (byte flags : BitVec 8) (shift other : ℕ)
    (hshifts : (shift = 0 ∧ other = 4) ∨ (shift = 4 ∧ other = 0)) :
    (((byte &&& ~~~((0xf : BitVec 8) <<< shift)) |||
      ((flags <<< shift) &&& ((0xf : BitVec 8) <<< shift))) >>> other) &&& 0xf =
        (byte >>> other) &&& 0xf := by
  ext bit hbit
  rcases hshifts with ⟨rfl, rfl⟩ | ⟨rfl, rfl⟩ <;> interval_cases bit <;> simp

/-- The globals that no allocation or release changes. -/
def Heap.shape (heap : Heap) : ℕ × UInt32 × ℕ :=
  (heap.heapMapSize, heap.heapBase, heap.heapFirstFree)

theorem Heap.maxIndex_eq {heap other : Heap} (hshape : heap.shape = other.shape) :
    heap.maxIndex = other.maxIndex := by
  simp_all [Heap.shape, Heap.maxIndex]

@[simp]
theorem setHeapIndex_shape (heap : Heap) (index : ℕ) (flags : BitVec 8) :
    (setHeapIndex heap index flags).shape = heap.shape := by
  unfold setHeapIndex
  split <;> rfl

@[simp]
theorem setHeapIndex_maxIndex (heap : Heap) (index : ℕ) (flags : BitVec 8) :
    (setHeapIndex heap index flags).maxIndex = heap.maxIndex :=
  Heap.maxIndex_eq (by simp)

theorem getHeapIndex_of_ge (heap : Heap) {index : ℕ}
    (hindex : heap.maxIndex ≤ index) : getHeapIndex heap index = 0 := by
  simp [getHeapIndex, hindex]

theorem getHeapIndex_setHeapIndex_self (heap : Heap) {index : ℕ}
    {flags : BitVec 8} (hindex : index < heap.maxIndex)
    (hflags : flags &&& 0xf = flags) :
    getHeapIndex (setHeapIndex heap index flags) index = flags := by
  have hin : ¬ index ≥ heap.maxIndex := by omega
  have hshift : index % 2 * 4 = 0 ∨ index % 2 * 4 = 4 := by omega
  rw [getHeapIndex, setHeapIndex_maxIndex, if_neg hin, setHeapIndex, if_neg hin]
  simp only [Function.update_self]
  exact nibble_self _ flags _ hshift hflags

theorem getHeapIndex_setHeapIndex_of_ne (heap : Heap) {index other : ℕ}
    (flags : BitVec 8) (hne : other ≠ index) :
    getHeapIndex (setHeapIndex heap index flags) other =
      getHeapIndex heap other := by
  by_cases hindex : index ≥ heap.maxIndex
  · rw [setHeapIndex, if_pos hindex]
  by_cases hother : other ≥ heap.maxIndex
  · rw [getHeapIndex_of_ge _ hother, getHeapIndex_of_ge _ (by simpa using hother)]
  rw [getHeapIndex, getHeapIndex, setHeapIndex_maxIndex, if_neg hother,
    if_neg hother, setHeapIndex, if_neg hindex]
  by_cases hbyte : other / 2 = index / 2
  · simp only [hbyte, Function.update_self]
    exact nibble_other _ flags _ _ (by omega)
  · simp only [Function.update_of_ne hbyte]

/-! ## Allocation -/

/-- The inner loop of the search: the first `j` at which the run of
`size_pgs` pages from `i` meets a used entry. -/
def firstUsed (heap : Heap) (i sizePgs : ℕ) : Option ℕ :=
  (List.range sizePgs).find? fun j =>
    getHeapIndex heap ((i + j) % 2 ^ 32) != 0

/-- The outer loop from page `i`; the result is `start`, which stays 0 when
no run was found.  Its only variable is `i`, so a loop that is still running
after as many rounds as there are pages never ends. -/
def searchFrom (heap : Heap) (sizePgs : ℕ) : ℕ → ℕ → Option ℕ
  | 0, _ => none
  | rounds + 1, i =>
      if i < heap.maxIndex then
        match firstUsed heap i sizePgs with
        | none => some i
        | some j => searchFrom heap sizePgs rounds ((i + j + 1) % 2 ^ 32)
      else some 0

/-- The flags of page `i` of a block of `size_pgs` pages. -/
def pageFlags (i sizePgs : ℕ) : BitVec 8 :=
  kmallocUsed ||| (if 0 < i then kmallocLinkLast else 0) |||
    (if i < sizePgs - 1 then kmallocLinkNext else 0)

/-- The marking loop of `heap_alloc`. -/
def markBlock (start sizePgs : ℕ) : ℕ → Heap → Heap
  | 0, heap => heap
  | count + 1, heap =>
      setHeapIndex (markBlock start sizePgs count heap)
        ((start + count) % 2 ^ 32) (pageFlags count sizePgs)

/-- `heap_alloc`: `none` when the search never ends, otherwise the new map
and the address returned, `none` standing for a null pointer. -/
def heapAlloc (heap : Heap) (sizePgs : UInt32) : Option (Heap × Option UInt32) :=
  match searchFrom heap sizePgs.toNat (heap.maxIndex + 1) heap.heapFirstFree with
  | none => none
  | some start =>
      if start = 0 ∧ getHeapIndex heap start ≠ 0 then some (heap, none)
      else
        some (markBlock start sizePgs.toNat sizePgs.toNat heap,
          some (heapIndexToAddress heap start))

/-! ## Release -/

/-- The first loop of `heap_free`; below page 0 the index wraps around to an
entry that reads as free, which ends the loop. -/
def blockStart (heap : Heap) : ℕ → ℕ
  | 0 =>
      if getHeapIndex heap 0 &&& kmallocLinkLast ≠ 0 then 2 ^ 32 - 1 else 0
  | index + 1 =>
      if getHeapIndex heap (index + 1) &&& kmallocLinkLast ≠ 0 then
        blockStart heap index
      else index + 1

/-- The second loop of `heap_free`.  Past the last page every entry reads as
free, so as many rounds as there are pages, and one more, are enough. -/
def releaseFrom : ℕ → ℕ → Heap → Heap
  | 0, _, heap => heap
  | rounds + 1, index, heap =>
      let flags := getHeapIndex heap index
      let cleared := setHeapIndex heap index 0
      if flags &&& kmallocLinkNext = 0 then cleared
      else releaseFrom rounds (index + 1) cleared

/-- `(addr - heap_base) >> 12`: the difference of two `void *` is signed, so
the shift is an arithmetic one. -/
def freeIndex (heap : Heap) (addr : UInt32) : ℕ :=
  let difference := (addr - heap.heapBase).toNat
  if difference < 2 ^ 31 then difference / pageSizeBytes
  else 2 ^ 32 - 2 ^ 20 + difference / pageSizeBytes

def heapFree (heap : Heap) (addr : UInt32) : Heap :=
  let heapIndex := freeIndex heap addr
  if heapIndex > heap.maxIndex then heap
  else releaseFrom (heap.maxIndex + 1) (blockStart heap heapIndex) heap

/-! ## What the search finds -/

/-- The pages `start, ..., start + sizePgs - 1` are inside the heap and
free. -/
def FreeRun (heap : Heap) (start sizePgs : ℕ) : Prop :=
  start + sizePgs ≤ heap.maxIndex ∧
    ∀ k < sizePgs, getHeapIndex heap (start + k) = 0

/-- Some run of `sizePgs` pages inside the heap is free. -/
def Fits (heap : Heap) (sizePgs : ℕ) : Prop := ∃ start, FreeRun heap start sizePgs

theorem firstUsed_eq_none {heap : Heap} {i sizePgs : ℕ} :
    firstUsed heap i sizePgs = none ↔
      ∀ j < sizePgs, getHeapIndex heap ((i + j) % 2 ^ 32) = 0 := by
  simp [firstUsed, List.find?_eq_none]

theorem firstUsed_eq_some {heap : Heap} {i sizePgs j : ℕ}
    (hfound : firstUsed heap i sizePgs = some j) :
    j < sizePgs ∧ getHeapIndex heap ((i + j) % 2 ^ 32) ≠ 0 ∧
      ∀ k < j, getHeapIndex heap ((i + k) % 2 ^ 32) = 0 := by
  rw [firstUsed, List.find?_range_eq_some] at hfound
  obtain ⟨hused, hmem, hbefore⟩ := hfound
  refine ⟨by simpa using hmem, by simpa using hused, ?_⟩
  intro k hk
  simpa using hbefore k hk

/-- When a run fits, the search returns the lowest one. -/
theorem searchFrom_of_freeRun {heap : Heap} {sizePgs lowest : ℕ}
    (hmax : heap.maxIndex ≤ 2 ^ 20) (hpos : 0 < sizePgs)
    (hfree : FreeRun heap lowest sizePgs)
    (hlowest : ∀ start < lowest, ¬ FreeRun heap start sizePgs) :
    ∀ rounds i, i ≤ lowest → lowest < i + rounds →
      searchFrom heap sizePgs rounds i = some lowest := by
  have hend := hfree.1
  intro rounds
  induction rounds with
  | zero => intro i hi hrounds; omega
  | succ rounds ih =>
      intro i hi hrounds
      rw [searchFrom, if_pos (by omega)]
      cases hused : firstUsed heap i sizePgs with
      | none =>
          -- a run from `i` that meets no used entry ends inside the heap
          rw [firstUsed_eq_none] at hused
          have hrun : FreeRun heap i sizePgs := by
            refine ⟨by omega, fun k hk => ?_⟩
            have hentry := hused k hk
            rwa [Nat.mod_eq_of_lt (by omega)] at hentry
          have : ¬ i < lowest := fun hlt => hlowest i hlt hrun
          simp only [Option.some.injEq]
          omega
      | some j =>
          obtain ⟨hj, hentry, -⟩ := firstUsed_eq_some hused
          rw [Nat.mod_eq_of_lt (by omega)] at hentry
          have hbelow : i + j < lowest := by
            by_contra hge
            have hzero := hfree.2 (i + j - lowest) (by omega)
            rw [show lowest + (i + j - lowest) = i + j by omega] at hzero
            exact hentry hzero
          simp only []
          rw [Nat.mod_eq_of_lt (by omega)]
          exact ih (i + j + 1) (by omega) (by omega)

/-- When nothing fits and the last page is used, the search falls through
with `start` still 0. -/
theorem searchFrom_of_not_fits {heap : Heap} {sizePgs : ℕ}
    (hmax : heap.maxIndex ≤ 2 ^ 20) (hnofit : ¬ Fits heap sizePgs)
    (hlast : getHeapIndex heap (heap.maxIndex - 1) ≠ 0) :
    ∀ rounds i, i ≤ heap.maxIndex → heap.maxIndex < i + rounds →
      searchFrom heap sizePgs rounds i = some 0 := by
  have hnonempty : 0 < heap.maxIndex := by
    by_contra hzero
    exact hlast (getHeapIndex_of_ge heap (by omega))
  intro rounds
  induction rounds with
  | zero => intro i hi hrounds; omega
  | succ rounds ih =>
      intro i hi hrounds
      rw [searchFrom]
      by_cases hin : i < heap.maxIndex
      · rw [if_pos hin]
        -- either the run ends inside the heap, or it covers the last page
        have hshort : heap.maxIndex - 1 - i < sizePgs ∨ i + sizePgs ≤ heap.maxIndex := by
          omega
        cases hused : firstUsed heap i sizePgs with
        | none =>
            rw [firstUsed_eq_none] at hused
            rcases hshort with hcover | hinside
            · have hentry := hused _ hcover
              rw [Nat.mod_eq_of_lt (by omega),
                show i + (heap.maxIndex - 1 - i) = heap.maxIndex - 1 by omega] at hentry
              exact absurd hentry hlast
            · refine absurd ⟨i, hinside, fun k hk => ?_⟩ hnofit
              have hentry := hused k hk
              rwa [Nat.mod_eq_of_lt (by omega)] at hentry
        | some j =>
            obtain ⟨hj, -, hbefore⟩ := firstUsed_eq_some hused
            have hinside : i + j < heap.maxIndex := by
              by_contra hge
              have hentry := hbefore (heap.maxIndex - 1 - i) (by omega)
              rw [Nat.mod_eq_of_lt (by omega),
                show i + (heap.maxIndex - 1 - i) = heap.maxIndex - 1 by omega] at hentry
              exact hlast hentry
            simp only []
            rw [Nat.mod_eq_of_lt (by omega)]
            exact ih (i + j + 1) (by omega) (by omega)
      · rw [if_neg hin]

/-- The lowest run that fits. -/
theorem exists_lowest_freeRun {heap : Heap} {sizePgs : ℕ}
    (hfits : Fits heap sizePgs) :
    ∃ lowest, FreeRun heap lowest sizePgs ∧
      ∀ start < lowest, ¬ FreeRun heap start sizePgs := by
  classical
  exact ⟨Nat.find hfits, Nat.find_spec hfits, fun start => Nat.find_min hfits⟩

/-! ## What marking and releasing do to the entries -/

theorem pageFlags_and_mask (i sizePgs : ℕ) :
    pageFlags i sizePgs &&& 0xf = pageFlags i sizePgs := by
  unfold pageFlags
  split <;> split <;> decide

theorem pageFlags_ne_zero (i sizePgs : ℕ) : pageFlags i sizePgs ≠ 0 := by
  unfold pageFlags
  split <;> split <;> decide

theorem pageFlags_linkLast (i sizePgs : ℕ) :
    pageFlags i sizePgs &&& kmallocLinkLast ≠ 0 ↔ 0 < i := by
  unfold pageFlags
  split <;> split <;> simp_all [kmallocUsed, kmallocLinkLast, kmallocLinkNext]

theorem pageFlags_linkNext (i sizePgs : ℕ) :
    pageFlags i sizePgs &&& kmallocLinkNext = 0 ↔ ¬ i < sizePgs - 1 := by
  unfold pageFlags
  split <;> split <;> simp_all [kmallocUsed, kmallocLinkLast, kmallocLinkNext]

@[simp]
theorem markBlock_shape (start sizePgs count : ℕ) (heap : Heap) :
    (markBlock start sizePgs count heap).shape = heap.shape := by
  induction count with
  | zero => rfl
  | succ count ih => simp [markBlock, ih]

@[simp]
theorem markBlock_maxIndex (start sizePgs count : ℕ) (heap : Heap) :
    (markBlock start sizePgs count heap).maxIndex = heap.maxIndex :=
  Heap.maxIndex_eq (by simp)

/-- Marking a block inside the heap links its pages and changes no other
entry. -/
theorem getHeapIndex_markBlock {heap : Heap} {start sizePgs : ℕ}
    (hmax : heap.maxIndex ≤ 2 ^ 20) :
    ∀ count, start + count ≤ heap.maxIndex → ∀ index,
      getHeapIndex (markBlock start sizePgs count heap) index =
        if start ≤ index ∧ index < start + count then
          pageFlags (index - start) sizePgs
        else getHeapIndex heap index := by
  intro count
  induction count with
  | zero =>
      intro _ index
      rw [if_neg (by omega)]
      rfl
  | succ count ih =>
      intro hend index
      rw [markBlock, Nat.mod_eq_of_lt (by omega)]
      by_cases hindex : index = start + count
      · subst hindex
        rw [getHeapIndex_setHeapIndex_self _ (by simp; omega)
          (pageFlags_and_mask _ _), if_pos (by omega), Nat.add_sub_cancel_left]
      · rw [getHeapIndex_setHeapIndex_of_ne _ _ hindex, ih (by omega) index]
        by_cases hin : start ≤ index ∧ index < start + count
        · rw [if_pos hin, if_pos (by omega)]
        · rw [if_neg hin, if_neg (by omega)]

@[simp]
theorem releaseFrom_shape (rounds index : ℕ) (heap : Heap) :
    (releaseFrom rounds index heap).shape = heap.shape := by
  induction rounds generalizing index heap with
  | zero => rfl
  | succ rounds ih =>
      simp only [releaseFrom]
      split
      · simp
      · simp [ih]

/-- The pages of a block are linked as `heap_alloc` links them. -/
def Linked (heap : Heap) (start sizePgs : ℕ) : Prop :=
  start + sizePgs ≤ heap.maxIndex ∧
    ∀ k < sizePgs, getHeapIndex heap (start + k) = pageFlags k sizePgs

/-- From page `k` of a linked block, the release loop clears the rest of the
block and nothing else. -/
theorem getHeapIndex_releaseFrom {start sizePgs : ℕ} :
    ∀ rounds k (heap : Heap), k < sizePgs → sizePgs < k + rounds →
      start + sizePgs ≤ heap.maxIndex →
      (∀ l, k ≤ l → l < sizePgs →
        getHeapIndex heap (start + l) = pageFlags l sizePgs) →
      ∀ index, getHeapIndex (releaseFrom rounds (start + k) heap) index =
        if start + k ≤ index ∧ index < start + sizePgs then 0
        else getHeapIndex heap index := by
  intro rounds
  induction rounds with
  | zero => intro k heap hk hrounds; omega
  | succ rounds ih =>
      intro k heap hk hrounds hend hlinked index
      have hcleared : ∀ other,
          getHeapIndex (setHeapIndex heap (start + k) 0) other =
            if other = start + k then 0 else getHeapIndex heap other := by
        intro other
        by_cases hother : other = start + k
        · subst hother
          rw [if_pos rfl, getHeapIndex_setHeapIndex_self _ (by omega) (by decide)]
        · rw [if_neg hother, getHeapIndex_setHeapIndex_of_ne _ _ hother]
      simp only [releaseFrom]
      rw [hlinked k le_rfl hk]
      by_cases hlast : k < sizePgs - 1
      · rw [if_neg (by rw [pageFlags_linkNext]; omega), Nat.add_assoc,
          ih (k + 1) _ (by omega) (by omega) (by simpa using hend) ?_ index, hcleared]
        · by_cases hindex : index = start + k
          · rw [if_neg (by omega), if_pos hindex, if_pos (by omega)]
          · rw [if_neg hindex]
            by_cases hin : start + (k + 1) ≤ index ∧ index < start + sizePgs
            · rw [if_pos hin, if_pos (by omega)]
            · rw [if_neg hin, if_neg (by omega)]
        · intro l hl hlt
          rw [hcleared, if_neg (by omega)]
          exact hlinked l (by omega) hlt
      · rw [if_pos ((pageFlags_linkNext k sizePgs).mpr hlast), hcleared]
        by_cases hindex : index = start + k
        · rw [if_pos hindex, if_pos (by omega)]
        · rw [if_neg hindex, if_neg (by omega)]

/-- The backward loop stops at once on the first page of a block. -/
theorem blockStart_of_linked {heap : Heap} {start sizePgs : ℕ}
    (hlinked : Linked heap start sizePgs) (hpos : 0 < sizePgs) :
    blockStart heap start = start := by
  have hfirst : getHeapIndex heap start = pageFlags 0 sizePgs := by
    simpa using hlinked.2 0 hpos
  have hnotLast : ¬ getHeapIndex heap start &&& kmallocLinkLast ≠ 0 := by
    rw [hfirst, pageFlags_linkLast]
    omega
  cases start with
  | zero => rw [blockStart, if_neg hnotLast]
  | succ start => rw [blockStart, if_neg hnotLast]

/-! ## The two operations -/

theorem heapAlloc_of_fits {heap : Heap} {sizePgs : UInt32}
    (hmax : heap.maxIndex ≤ 2 ^ 20) (hfirst : heap.heapFirstFree = 0)
    (hpos : 0 < sizePgs.toNat) (hfits : Fits heap sizePgs.toNat) :
    ∃ lowest, FreeRun heap lowest sizePgs.toNat ∧
      (∀ start < lowest, ¬ FreeRun heap start sizePgs.toNat) ∧
      heapAlloc heap sizePgs =
        some (markBlock lowest sizePgs.toNat sizePgs.toNat heap,
          some (heapIndexToAddress heap lowest)) := by
  obtain ⟨lowest, hfree, hlowest⟩ := exists_lowest_freeRun hfits
  refine ⟨lowest, hfree, hlowest, ?_⟩
  have hend := hfree.1
  have hsearch := searchFrom_of_freeRun hmax hpos hfree hlowest
    (heap.maxIndex + 1) 0 (by omega) (by omega)
  have hused : ¬ (lowest = 0 ∧ getHeapIndex heap lowest ≠ 0) := by
    intro ⟨_, hentry⟩
    exact hentry (by simpa using hfree.2 0 hpos)
  simp only [heapAlloc, hfirst, hsearch]
  rw [if_neg hused]

/-- With the first and the last page used, a request that does not fit fails
and leaves the map alone. -/
theorem heapAlloc_of_not_fits {heap : Heap} {sizePgs : UInt32}
    (hmax : heap.maxIndex ≤ 2 ^ 20) (hfirst : heap.heapFirstFree = 0)
    (hnofit : ¬ Fits heap sizePgs.toNat) (hzero : getHeapIndex heap 0 ≠ 0)
    (hlast : getHeapIndex heap (heap.maxIndex - 1) ≠ 0) :
    heapAlloc heap sizePgs = some (heap, none) := by
  have hsearch := searchFrom_of_not_fits hmax hnofit hlast
    (heap.maxIndex + 1) 0 (by omega) (by omega)
  simp only [heapAlloc, hfirst, hsearch]
  rw [if_pos ⟨trivial, hzero⟩]

/-- With the last page free the search never falls through: every used entry
it stops at is followed by another page of the heap. -/
theorem searchFrom_of_last_free {heap : Heap} {sizePgs : ℕ}
    (hmax : heap.maxIndex ≤ 2 ^ 20)
    (hlast : getHeapIndex heap (heap.maxIndex - 1) = 0)
    (hzero : getHeapIndex heap 0 ≠ 0) (hpos : 0 < sizePgs) :
    ∀ rounds i, i < heap.maxIndex →
      searchFrom heap sizePgs rounds i ≠ some 0 := by
  intro rounds
  induction rounds with
  | zero => intro i _; simp [searchFrom]
  | succ rounds ih =>
      intro i hi
      rw [searchFrom, if_pos hi]
      cases hused : firstUsed heap i sizePgs with
      | none =>
          rw [firstUsed_eq_none] at hused
          intro hstart
          obtain rfl : i = 0 := by simpa using hstart
          exact hzero (by simpa using hused 0 hpos)
      | some j =>
          obtain ⟨-, hentry, -⟩ := firstUsed_eq_some hused
          have hin : (i + j) % 2 ^ 32 < heap.maxIndex := by
            by_contra hge
            exact hentry (getHeapIndex_of_ge heap (by omega))
          have hne : (i + j) % 2 ^ 32 ≠ heap.maxIndex - 1 := by
            intro heq
            exact hentry (heq ▸ hlast)
          exact ih _ (by omega)

theorem used_ends_of_heapAlloc {heap : Heap} {sizePgs : UInt32}
    (hmax : heap.maxIndex ≤ 2 ^ 20) (hfirst : heap.heapFirstFree = 0)
    (hpos : 0 < sizePgs.toNat)
    (hfail : heapAlloc heap sizePgs = some (heap, none)) :
    getHeapIndex heap 0 ≠ 0 ∧ getHeapIndex heap (heap.maxIndex - 1) ≠ 0 := by
  simp only [heapAlloc, hfirst] at hfail
  cases hsearch : searchFrom heap sizePgs.toNat (heap.maxIndex + 1) 0 with
  | none => simp [hsearch] at hfail
  | some start =>
      rw [hsearch] at hfail
      by_cases hused : start = 0 ∧ getHeapIndex heap start ≠ 0
      · obtain ⟨rfl, hzero⟩ := hused
        have hin : 0 < heap.maxIndex := by
          by_contra hempty
          exact hzero (getHeapIndex_of_ge heap (by omega))
        refine ⟨hzero, fun hlast => ?_⟩
        exact searchFrom_of_last_free hmax hlast hzero hpos _ 0 hin hsearch
      · simp only [if_neg hused] at hfail
        simp at hfail

theorem toNat_heapIndexToAddress_sub (heap : Heap) {index : ℕ}
    (hindex : index < 2 ^ 20) :
    (heapIndexToAddress heap index - heap.heapBase).toNat =
      index * pageSizeBytes := by
  have hdifference : heapIndexToAddress heap index - heap.heapBase =
      UInt32.ofNat (index * pageSizeBytes) := by
    simp [heapIndexToAddress]
  rw [hdifference, UInt32.toNat_ofNat']
  exact Nat.mod_eq_of_lt (by simp [pageSizeBytes]; omega)

theorem heapIndexToAddress_injective (heap : Heap) {i j : ℕ}
    (hi : i < 2 ^ 20) (hj : j < 2 ^ 20)
    (heq : heapIndexToAddress heap i = heapIndexToAddress heap j) : i = j := by
  have hnat := congrArg (fun address => (address - heap.heapBase).toNat) heq
  simp only [toNat_heapIndexToAddress_sub heap hi,
    toNat_heapIndexToAddress_sub heap hj, pageSizeBytes] at hnat
  omega

theorem heapIndexToAddress_add (heap : Heap) (index k : ℕ) :
    heapIndexToAddress heap index + UInt32.ofNat (k * pageSizeBytes) =
      heapIndexToAddress heap (index + k) := by
  simp [heapIndexToAddress, Nat.add_mul, UInt32.add_assoc]

theorem freeIndex_heapIndexToAddress (heap : Heap) {index : ℕ}
    (hindex : index < 2 ^ 20) :
    freeIndex heap (heapIndexToAddress heap index) =
      if index < 2 ^ 19 then index else 2 ^ 32 - 2 ^ 20 + index := by
  simp only [freeIndex, toNat_heapIndexToAddress_sub heap hindex, pageSizeBytes]
  by_cases hhalf : index < 2 ^ 19
  · rw [if_pos (by omega), if_pos hhalf]
    omega
  · rw [if_neg (by omega), if_neg hhalf]
    omega

@[simp]
theorem heapFree_shape (heap : Heap) (addr : UInt32) :
    (heapFree heap addr).shape = heap.shape := by
  simp only [heapFree]
  split
  · rfl
  · simp

/-- Freeing a linked block by its address clears its entries, unless the
block starts 2 GiB or more above the base, where the signed shift turns the
call into one that does nothing. -/
theorem getHeapIndex_heapFree {heap : Heap} {start sizePgs : ℕ}
    (hmax : heap.maxIndex ≤ 2 ^ 20) (hpos : 0 < sizePgs)
    (hlinked : Linked heap start sizePgs) (index : ℕ) :
    getHeapIndex (heapFree heap (heapIndexToAddress heap start)) index =
      if start < 2 ^ 19 ∧ start ≤ index ∧ index < start + sizePgs then 0
      else getHeapIndex heap index := by
  have hend := hlinked.1
  simp only [heapFree]
  rw [freeIndex_heapIndexToAddress heap (by omega)]
  by_cases hhalf : start < 2 ^ 19
  · rw [if_pos hhalf, if_neg (by omega), blockStart_of_linked hlinked hpos]
    have hrelease := getHeapIndex_releaseFrom (heap.maxIndex + 1) 0 heap hpos
      (by omega) hend (fun l _ hl => hlinked.2 l hl) index
    simp only [Nat.add_zero] at hrelease
    rw [hrelease]
    simp only [hhalf, true_and]
  · rw [if_neg hhalf, if_pos (by omega), if_neg (by omega)]

/-! ## Runs of the heap -/

/-- A block handed out: the pointer returned and the pages asked for. -/
structure Block where
  addr : UInt32
  pages : ℕ
  deriving DecidableEq

/-- The address of page `k` of a block. -/
def Block.page (block : Block) (k : ℕ) : UInt32 :=
  block.addr + UInt32.ofNat (k * pageSizeBytes)

/-- The heap together with the blocks that have been handed out and not yet
freed. -/
structure HeapState where
  heap : Heap
  live : List Block

inductive Event where
  | alloc (sizePgs : UInt32)
  | free (addr : UInt32)

/-- One call.  `heap_alloc` is asked for at least one page, `heap_free` is
given the address of a live block; the caller may do nothing else. -/
def step (state : HeapState) : Event → Option HeapState
  | .alloc sizePgs =>
      if sizePgs = 0 then none
      else
        match heapAlloc state.heap sizePgs with
        | none => none
        | some (heap, none) => some { state with heap := heap }
        | some (heap, some addr) =>
            some ⟨heap, ⟨addr, sizePgs.toNat⟩ :: state.live⟩
  | .free addr =>
      match state.live.find? (fun block => block.addr = addr) with
      | none => none
      | some block => some ⟨heapFree state.heap addr, state.live.erase block⟩

/-- The requests the search handles: some run of free pages inside the heap
is long enough, or the first and the last page of the heap are both in use. -/
def Served (heap : Heap) (sizePgs : ℕ) : Prop :=
  Fits heap sizePgs ∨
    (getHeapIndex heap 0 ≠ 0 ∧ getHeapIndex heap (heap.maxIndex - 1) ≠ 0)

def ServedEvent (state : HeapState) : Event → Prop
  | .alloc sizePgs => Served state.heap sizePgs.toNat
  | .free _ => True

/-- Every live block lies in the heap, and no two live blocks share a page. -/
def Isolated (state : HeapState) : Prop :=
  (∀ block ∈ state.live, ∀ k < block.pages, ∃ index < state.heap.maxIndex,
    block.page k = heapIndexToAddress state.heap index) ∧
  state.live.Pairwise fun left right =>
    ∀ j < left.pages, ∀ k < right.pages, left.page j ≠ right.page k

/-- The block occupies the heap pages from `start` on. -/
def Block.At (heap : Heap) (block : Block) (start : ℕ) : Prop :=
  block.addr = heapIndexToAddress heap start ∧
    start + block.pages ≤ heap.maxIndex

theorem Block.at_of_shape {heap other : Heap} (hshape : heap.shape = other.shape)
    {block : Block} {start : ℕ} (hat : block.At heap start) :
    block.At other start := by
  have hmax := Heap.maxIndex_eq hshape
  simp only [Heap.shape, Prod.mk.injEq] at hshape
  rw [Block.At, heapIndexToAddress] at hat ⊢
  rw [← hmax, ← hshape.2.1]
  exact hat

/-- What every admissible call preserves: each live block is linked at its
place in the heap, and the places are disjoint. -/
structure HeapInv (state : HeapState) : Prop where
  bound : state.heap.maxIndex ≤ 2 ^ 20
  first : state.heap.heapFirstFree = 0
  placed : ∀ block ∈ state.live, 0 < block.pages ∧ ∃ start,
    block.At state.heap start ∧ Linked state.heap start block.pages
  apart : state.live.Pairwise fun left right => ∀ i j,
    left.At state.heap i → right.At state.heap j →
      i + left.pages ≤ j ∨ j + right.pages ≤ i

theorem Block.page_of_at {heap : Heap} {block : Block} {start : ℕ}
    (hat : block.At heap start) (k : ℕ) :
    block.page k = heapIndexToAddress heap (start + k) := by
  rw [Block.page, hat.1, heapIndexToAddress_add]

theorem Block.at_unique {heap : Heap} {block : Block} {i j : ℕ}
    (hmax : heap.maxIndex ≤ 2 ^ 20) (hpages : 0 < block.pages)
    (hi : block.At heap i) (hj : block.At heap j) : i = j := by
  have hendi := hi.2
  have hendj := hj.2
  exact heapIndexToAddress_injective heap (by omega) (by omega)
    (hi.1.symm.trans hj.1)

theorem isolated_of_inv {state : HeapState} (hinv : HeapInv state) :
    Isolated state := by
  have hbound := hinv.bound
  constructor
  · intro block hblock k hk
    obtain ⟨-, start, hat, -⟩ := hinv.placed block hblock
    have hend := hat.2
    exact ⟨start + k, by omega, Block.page_of_at hat k⟩
  · refine hinv.apart.imp_of_mem ?_
    intro left right hleft hright hdisjoint j hj k hk heq
    obtain ⟨-, i, hatLeft, -⟩ := hinv.placed left hleft
    obtain ⟨-, i', hatRight, -⟩ := hinv.placed right hright
    have hendLeft := hatLeft.2
    have hendRight := hatRight.2
    rw [Block.page_of_at hatLeft, Block.page_of_at hatRight] at heq
    have hsame := heapIndexToAddress_injective state.heap (by omega) (by omega) heq
    have := hdisjoint i i' hatLeft hatRight
    omega

/-- A new block is disjoint from every block that is already linked, because
the run it was cut from is free. -/
theorem apart_of_freeRun {heap : Heap} {block : Block} {start lowest sizePgs : ℕ}
    (hlinked : Linked heap start block.pages)
    (hfree : FreeRun heap lowest sizePgs) (hpos : 0 < sizePgs)
    (hpages : 0 < block.pages) :
    lowest + sizePgs ≤ start ∨ start + block.pages ≤ lowest := by
  by_contra hoverlap
  -- a page both ranges contain would be used and free
  have hentry : ∀ index, start ≤ index → index < start + block.pages →
      getHeapIndex heap index ≠ 0 := by
    intro index hlow hhigh
    have := hlinked.2 (index - start) (by omega)
    rw [show start + (index - start) = index by omega] at this
    rw [this]
    exact pageFlags_ne_zero _ _
  have hzero : ∀ index, lowest ≤ index → index < lowest + sizePgs →
      getHeapIndex heap index = 0 := by
    intro index hlow hhigh
    have := hfree.2 (index - lowest) (by omega)
    rwa [show lowest + (index - lowest) = index by omega] at this
  by_cases horder : start ≤ lowest
  · exact hentry lowest horder (by omega) (hzero lowest le_rfl (by omega))
  · exact hentry start le_rfl (by omega) (hzero start (by omega) (by omega))

theorem linked_markBlock {heap : Heap} {lowest sizePgs : ℕ}
    (hmax : heap.maxIndex ≤ 2 ^ 20) (hfree : FreeRun heap lowest sizePgs) :
    Linked (markBlock lowest sizePgs sizePgs heap) lowest sizePgs := by
  refine ⟨by simpa using hfree.1, ?_⟩
  intro k hk
  rw [getHeapIndex_markBlock hmax sizePgs hfree.1, if_pos (by omega),
    Nat.add_sub_cancel_left]

theorem linked_of_unchanged {heap other : Heap} {start sizePgs : ℕ}
    (hshape : heap.shape = other.shape) (hlinked : Linked heap start sizePgs)
    (hsame : ∀ k < sizePgs,
      getHeapIndex other (start + k) = getHeapIndex heap (start + k)) :
    Linked other start sizePgs := by
  refine ⟨Heap.maxIndex_eq hshape ▸ hlinked.1, ?_⟩
  intro k hk
  rw [hsame k hk]
  exact hlinked.2 k hk

theorem inv_alloc {heap : Heap} {live : List Block} {sizePgs lowest : ℕ}
    (hinv : HeapInv ⟨heap, live⟩) (hpos : 0 < sizePgs)
    (hfree : FreeRun heap lowest sizePgs) :
    HeapInv ⟨markBlock lowest sizePgs sizePgs heap,
      ⟨heapIndexToAddress heap lowest, sizePgs⟩ :: live⟩ := by
  have hbound : heap.maxIndex ≤ 2 ^ 20 := hinv.bound
  have hshape : (markBlock lowest sizePgs sizePgs heap).shape = heap.shape := by
    simp
  have hnew : Block.At heap ⟨heapIndexToAddress heap lowest, sizePgs⟩ lowest :=
    ⟨rfl, hfree.1⟩
  constructor
  · simpa using hbound
  · have hfirst := hinv.first
    simp only [Heap.shape, Prod.mk.injEq] at hshape
    exact hshape.2.2.trans hfirst
  · intro block hblock
    rcases List.mem_cons.mp hblock with rfl | hold
    · exact ⟨hpos, lowest, Block.at_of_shape hshape.symm hnew,
        linked_markBlock hbound hfree⟩
    · obtain ⟨hpages, start, hat, hlinked⟩ := hinv.placed block hold
      refine ⟨hpages, start, Block.at_of_shape hshape.symm hat,
        linked_of_unchanged hshape.symm hlinked fun k hk => ?_⟩
      have hapart := apart_of_freeRun hlinked hfree hpos hpages
      rw [getHeapIndex_markBlock hbound sizePgs hfree.1, if_neg (by omega)]
  · refine List.pairwise_cons.mpr ⟨?_, ?_⟩
    · intro block hold i j hati hatj
      obtain ⟨hpages, start, hat, hlinked⟩ := hinv.placed block hold
      have hi : i = lowest :=
        Block.at_unique hbound hpos (Block.at_of_shape hshape hati) hnew
      have hj : j = start :=
        Block.at_unique hbound hpages (Block.at_of_shape hshape hatj) hat
      subst hi hj
      exact apart_of_freeRun hlinked hfree hpos hpages
    · refine hinv.apart.imp ?_
      intro left right hdisjoint i j hati hatj
      exact hdisjoint i j (Block.at_of_shape hshape hati)
        (Block.at_of_shape hshape hatj)

theorem inv_free {heap : Heap} {live : List Block} {block : Block}
    (hinv : HeapInv ⟨heap, live⟩) (hblock : block ∈ live) :
    HeapInv ⟨heapFree heap block.addr, live.erase block⟩ := by
  have hbound : heap.maxIndex ≤ 2 ^ 20 := hinv.bound
  have hshape : (heapFree heap block.addr).shape = heap.shape := by simp
  obtain ⟨hpages, start, hat, hlinked⟩ := hinv.placed block hblock
  have hapart : ∀ other ∈ live.erase block, ∀ j, other.At heap j →
      start + block.pages ≤ j ∨ j + other.pages ≤ start := by
    have hcons := ((List.perm_cons_erase hblock).pairwise_iff
      (fun {left right} hdisjoint i j hati hatj =>
        (hdisjoint j i hatj hati).symm)).mp hinv.apart
    intro other hother j hatj
    exact (List.pairwise_cons.mp hcons).1 other hother start j hat hatj
  constructor
  · rw [Heap.maxIndex_eq hshape]
    exact hbound
  · have hfirst := hinv.first
    simp only [Heap.shape, Prod.mk.injEq] at hshape
    exact hshape.2.2.trans hfirst
  · intro other hother
    obtain ⟨hotherPages, j, hatj, hotherLinked⟩ :=
      hinv.placed other (List.mem_of_mem_erase hother)
    refine ⟨hotherPages, j, Block.at_of_shape hshape.symm hatj,
      linked_of_unchanged hshape.symm hotherLinked fun k hk => ?_⟩
    have := hapart other hother j hatj
    rw [hat.1, getHeapIndex_heapFree hbound hpages hlinked, if_neg (by omega)]
  · refine (hinv.apart.sublist List.erase_sublist).imp ?_
    intro left right hdisjoint i j hati hatj
    exact hdisjoint i j (Block.at_of_shape hshape hati)
      (Block.at_of_shape hshape hatj)

theorem inv_heapInit (sizeBytes heapBase : UInt32) (oldMap : ℕ → BitVec 8) :
    HeapInv ⟨heapInit sizeBytes oldMap heapBase, []⟩ := by
  constructor
  · simp only [heapInit, Heap.maxIndex, pageSizeBytes]
    omega
  · rfl
  · intro block hblock
    simp at hblock
  · exact List.Pairwise.nil

theorem inv_step (state : HeapState) (event : Event) (next : HeapState)
    (hinv : HeapInv state) (hserved : ServedEvent state event)
    (hstep : step state event = some next) : HeapInv next := by
  cases event with
  | alloc sizePgs =>
      have hne : sizePgs ≠ 0 := by
        intro hzero
        simp [step, hzero] at hstep
      have hpos : 0 < sizePgs.toNat := by
        by_contra hzero
        exact hne (UInt32.toNat_inj.mp (by simpa using hzero))
      simp only [step, if_neg hne] at hstep
      by_cases hfits : Fits state.heap sizePgs.toNat
      · obtain ⟨lowest, hfree, -, halloc⟩ :=
          heapAlloc_of_fits hinv.bound hinv.first hpos hfits
        simp only [halloc, Option.some.injEq] at hstep
        subst hstep
        exact inv_alloc hinv hpos hfree
      · obtain ⟨hzero, hlast⟩ := hserved.resolve_left hfits
        have halloc := heapAlloc_of_not_fits hinv.bound hinv.first hfits hzero hlast
        simp only [halloc, Option.some.injEq] at hstep
        subst hstep
        exact hinv
  | free addr =>
      simp only [step] at hstep
      cases hfind : state.live.find? (fun block => block.addr = addr) with
      | none => simp [hfind] at hstep
      | some block =>
          have haddr : block.addr = addr := by
            simpa using List.find?_some hfind
          simp only [hfind, Option.some.injEq] at hstep
          subst hstep haddr
          exact inv_free hinv (List.mem_of_find?_eq_some hfind)

/-- Heap isolation.  In every run from `heap_init` whose requests are all
served, live blocks lie in the heap and are pairwise disjoint in every state
reached; there a served request returns, and one that does not fit returns
null and leaves the map alone exactly when it is served. -/
theorem heap_isolated (sizeBytes heapBase : UInt32) (oldMap : ℕ → BitVec 8)
    (events : List Event) (final : HeapState)
    (hserved : Meets step ServedEvent ⟨heapInit sizeBytes oldMap heapBase, []⟩
      events)
    (hrun : exec step ⟨heapInit sizeBytes oldMap heapBase, []⟩ events =
      some final) :
    Isolated final ∧ ∀ sizePgs : UInt32, sizePgs ≠ 0 →
      (Served final.heap sizePgs.toNat →
        ∃ result, heapAlloc final.heap sizePgs = some result) ∧
      (¬ Fits final.heap sizePgs.toNat →
        (heapAlloc final.heap sizePgs = some (final.heap, none) ↔
          Served final.heap sizePgs.toNat)) := by
  have hinv := exec_invariant inv_step
    (inv_heapInit sizeBytes heapBase oldMap) hserved hrun
  refine ⟨isolated_of_inv hinv, ?_⟩
  intro sizePgs hne
  have hpos : 0 < sizePgs.toNat := by
    by_contra hzero
    exact hne (UInt32.toNat_inj.mp (by simpa using hzero))
  constructor
  · rintro (hfits | ⟨hzero, hlast⟩)
    · obtain ⟨lowest, -, -, halloc⟩ :=
        heapAlloc_of_fits hinv.bound hinv.first hpos hfits
      exact ⟨_, halloc⟩
    · by_cases hfits : Fits final.heap sizePgs.toNat
      · obtain ⟨lowest, -, -, halloc⟩ :=
          heapAlloc_of_fits hinv.bound hinv.first hpos hfits
        exact ⟨_, halloc⟩
      · exact ⟨_, heapAlloc_of_not_fits hinv.bound hinv.first hfits hzero hlast⟩
  · intro hnofit
    constructor
    · intro hfail
      exact .inr (used_ends_of_heapAlloc hinv.bound hinv.first hpos hfail)
    · intro hserved
      obtain ⟨hzero, hlast⟩ := hserved.resolve_left hnofit
      exact heapAlloc_of_not_fits hinv.bound hinv.first hnofit hzero hlast

/-- A heap of four pages, for the runs below. -/
def fourPages : HeapState := ⟨heapInit 16384 (fun _ => 0xff) 0xc0400000, []⟩

/-- The first of two blocks is freed, and its pages are handed out again. -/
theorem heap_isolated_alloc_free :
    ∃ final, exec step fourPages [.alloc 2, .alloc 1, .free 0xc0400000, .alloc 1] =
        some final ∧ final.live = [⟨0xc0400000, 1⟩, ⟨0xc0402000, 1⟩] ∧ Isolated final := by
  refine ⟨_, rfl, rfl, ?_⟩
  refine (heap_isolated 16384 0xc0400000 (fun _ => 0xff)
    [.alloc 2, .alloc 1, .free 0xc0400000, .alloc 1] _ ⟨?_, ?_, trivial, ?_, trivial⟩ rfl).1
  · refine .inl ⟨0, by decide, ?_⟩
    intro k hk
    change k < 2 at hk
    interval_cases k <;> decide
  · refine .inl ⟨2, by decide, ?_⟩
    intro k hk
    change k < 1 at hk
    interval_cases k
    decide
  · refine .inl ⟨0, by decide, ?_⟩
    intro k hk
    change k < 1 at hk
    interval_cases k
    decide

/-- With only page 0 free again, a request for two pages finds no run, takes
the start page 0 for a success and hands out page 1 a second time. -/
theorem heap_overlapping_blocks :
    ∃ final, exec step fourPages
        [.alloc 1, .alloc 1, .alloc 2, .free 0xc0400000, .alloc 2] =
          some final ∧ ¬ Isolated final := by
  refine ⟨_, rfl, ?_⟩
  intro hisolated
  have hapart : List.Pairwise (fun left right : Block =>
      ∀ j < left.pages, ∀ k < right.pages, left.page j ≠ right.page k)
      [⟨0xc0400000, 2⟩, ⟨0xc0402000, 2⟩, ⟨0xc0401000, 1⟩] := hisolated.2
  exact (List.pairwise_cons.mp hapart).1 ⟨0xc0401000, 1⟩ (by simp)
    1 (by decide) 0 (by decide) (by decide)

end KimisOS.HeapMap
