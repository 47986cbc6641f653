import KimisOS.Memory.Paging
import KimisOS.Memory.HeapMap

/-!
# Kernel allocations and physical windows

Before the heap is set up `kmalloc` searches the page tables for a run of
unmapped pages from `0xc0000000` on and maps fresh frames there, linking the
pages by two of the available flag bits.  `kmalloc_page_paddr` does the same
for frames the caller names.  `kfree` follows the links; once `heap_base` is
set it hands every address to `heap_free` instead.
-/

namespace KimisOS.Kmalloc

open KimisOS.Frames
open KimisOS.Paging
open KimisOS.HeapMap

/-- The memory of the machine and the globals of the heap. -/
structure Kernel where
  machine : Machine
  heap : Heap

/-- `heap_base != 0`. -/
def Kernel.heapOn (kernel : Kernel) : Prop := kernel.heap.heapBase ≠ 0

instance (kernel : Kernel) : Decidable kernel.heapOn :=
  inferInstanceAs (Decidable (kernel.heap.heapBase ≠ 0))

/-! ## The functions -/

/-- `(void *)(page << 12)`. -/
def pageAt (page : ℕ) : BitVec 32 := BitVec.ofNat 32 page <<< 12

/-- The flags of page `j` of a block of `size_pgs` pages. -/
def linkFlags (j sizePgs : ℕ) : BitVec 32 :=
  ptPresent ||| (if j ≠ 0 then ptLinkL else 0) |||
    ((if j < sizePgs - 1 then ptLinkN else 0) ||| ptPcd)

/-- The inner loop of the search: whether the pages from `page` on are all
unmapped. -/
def pagesFree (m : Machine) (page : ℕ) : ℕ → Option Bool
  | 0 => some true
  | count + 1 => do
      let flags ← getPflags m (pageAt page)
      if flags ≠ 0 then some false else pagesFree m (page + 1) count

/-- The outer loop of the search from page `i`. -/
def findPages (m : Machine) (sizePgs : ℕ) : ℕ → ℕ → Option (Option ℕ)
  | 0, _ => some none
  | rounds + 1, i => do
      let found ← pagesFree m i sizePgs
      if found then some (some i) else findPages m sizePgs rounds (i + 1)

/-- The search of `kmalloc` and `kmalloc_page_paddr`: from the first kernel
page while `i < (1 << 22)`. -/
def searchPages (m : Machine) (sizePgs : ℕ) : Option (Option ℕ) :=
  findPages m sizePgs (2 ^ 22 - 0xc0000) 0xc0000

/-- The loop that maps the first pages of a window. -/
def mapWindow (m : Machine) (page sizePgs : ℕ) (paddr : BitVec 32) :
    ℕ → Option Machine
  | 0 => some m
  | count + 1 => do
      let mapped ← mapWindow m page sizePgs paddr count
      map mapped (pageAt (page + count)) (paddr + BitVec.ofNat 32 count * 4096)
        (linkFlags count sizePgs)

/-- `kmalloc_page_paddr`: the machine and the address returned. -/
def kmallocPagePaddr (m : Machine) (paddr : BitVec 32) (sizePgs : ℕ) :
    Option (Machine × BitVec 32) := do
  match ← searchPages m sizePgs with
  | none => some (m, 0)
  | some i =>
      let mapped ← mapWindow m i sizePgs paddr sizePgs
      some (mapped, pageAt i)

/-- The loop of `kmalloc` that maps fresh frames, and whether it ended without
running out of them.  When it does run out, `kfree` takes the page lock a second
time: it returns only if nothing is mapped at its argument. -/
def mapFresh (m : Machine) (page sizePgs : ℕ) : ℕ → Option (Machine × Bool)
  | 0 => some (m, true)
  | count + 1 => do
      let (mapped, served) ← mapFresh m page sizePgs count
      if served = false then some (mapped, false)
      else
        let (frames, physaddr) := pmAlloc mapped.frames
        let taken := mapped.setFrames frames
        if physaddr = 0 then
          let flags ← getPflags taken (BitVec.ofNat 32 page <<< 22)
          if flags = 0 then some (taken, false) else none
        else
          let linked ← map taken (pageAt (page + count))
            (BitVec.ofNat 32 physaddr) (linkFlags count sizePgs)
          some (linked, true)

/-- `kmalloc` before `heap_init`. -/
def kmallocPages (m : Machine) (sizePgs : ℕ) : Option (Machine × BitVec 32) := do
  match ← searchPages m sizePgs with
  | none => some (m, 0)
  | some i =>
      let (mapped, served) ← mapFresh m i sizePgs sizePgs
      some (mapped, if served then pageAt i else 0)

def kmalloc (kernel : Kernel) (sizePgs : UInt32) :
    Option (Kernel × BitVec 32) :=
  if kernel.heapOn then do
    let (heap, addr) ← heapAlloc kernel.heap sizePgs
    some ({ kernel with heap := heap },
      match addr with
      | none => 0
      | some addr => addr.toBitVec)
  else do
    let (machine, addr) ← kmallocPages kernel.machine sizePgs.toNat
    some ({ kernel with machine := machine }, addr)

/-- The first loop of `kfree`: back to the page that has no link to a last
one. -/
def firstPage (m : Machine) : ℕ → BitVec 32 → Option (BitVec 32)
  | 0, _ => none
  | rounds + 1, addr => do
      let flags ← getPflags m addr
      if flags &&& ptLinkL ≠ 0 then firstPage m rounds (addr - 0x1000)
      else some addr

/-- The second loop of `kfree`. -/
def releasePages (m : Machine) : ℕ → BitVec 32 → Option Machine
  | 0, _ => none
  | rounds + 1, addr => do
      let flags ← getPflags m addr
      let paddr ← getPaddr m addr
      let unmapped ← unmap m addr
      let freed := unmapped.setFrames (pmFree unmapped.frames paddr.toNat)
      if flags &&& ptLinkN = 0 then some freed
      else releasePages freed rounds (addr + 0x1000)

/-- `kfree` before `heap_init`.  There are `2 ^ 20` pages, so a loop that is
still running after as many rounds, and one more, never ends. -/
def kfreePages (m : Machine) (vaddr : BitVec 32) : Option Machine := do
  let flags ← getPflags m vaddr
  if flags = 0 then some m
  else
    let first ← firstPage m (2 ^ 20 + 1) (vaddr &&& ~~~0xfff)
    releasePages m (2 ^ 20 + 1) first

def kfree (kernel : Kernel) (vaddr : BitVec 32) : Option Kernel :=
  if kernel.heapOn then
    some { kernel with heap := heapFree kernel.heap (UInt32.ofBitVec vaddr) }
  else do
    let machine ← kfreePages kernel.machine vaddr
    some { kernel with machine := machine }

/-! ## Kernel pages -/

/-- The directory slots of the kernel half, without the recursive one. -/
def kernelSlots : Set (BitVec 10) := {slot | 768 ≤ slot.toNat ∧ slot.toNat < 1023}

/-- The pages behind these slots. -/
def KernelPage (page : ℕ) : Prop := 0xc0000 ≤ page ∧ page < 0xffc00

def slotOf (page : ℕ) : BitVec 10 := pdIndex (pageAt page)

def indexOf (page : ℕ) : BitVec 10 := ptIndex (pageAt page)

theorem KernelPage.pageAt_toNat {page : ℕ} (hpage : KernelPage page) :
    (pageAt page).toNat = page * 4096 := by
  obtain ⟨-, hhigh⟩ := hpage
  rw [pageAt, BitVec.toNat_shiftLeft, BitVec.toNat_ofNat, Nat.shiftLeft_eq]
  omega

theorem KernelPage.slotOf_toNat {page : ℕ} (hpage : KernelPage page) :
    (slotOf page).toNat = page / 1024 := by
  obtain ⟨hlow, hhigh⟩ := id hpage
  rw [slotOf, pdIndex, BitVec.extractLsb'_toNat, hpage.pageAt_toNat,
    Nat.shiftRight_eq_div_pow]
  omega

theorem KernelPage.indexOf_toNat {page : ℕ} (hpage : KernelPage page) :
    (indexOf page).toNat = page % 1024 := by
  obtain ⟨hlow, hhigh⟩ := id hpage
  rw [indexOf, ptIndex, BitVec.extractLsb'_toNat, hpage.pageAt_toNat,
    Nat.shiftRight_eq_div_pow]
  omega

theorem KernelPage.slotOf_mem {page : ℕ} (hpage : KernelPage page) :
    slotOf page ∈ kernelSlots := by
  have hslot := hpage.slotOf_toNat
  obtain ⟨hlow, hhigh⟩ := hpage
  constructor
  · omega
  · omega

theorem not_user_of_kernelSlot {vaddr : BitVec 32}
    (hslot : pdIndex vaddr ∈ kernelSlots) : ¬ vaddr < 0xc0000000 := by
  intro hlt
  have hvaddr : vaddr.toNat < 0xc0000000 := hlt
  have hlow := hslot.1
  rw [pdIndex, BitVec.extractLsb'_toNat, Nat.shiftRight_eq_div_pow] at hlow
  omega

theorem kernelPage_eq {page other : ℕ} (hpage : KernelPage page)
    (hother : KernelPage other) (hslot : slotOf other = slotOf page)
    (hindex : indexOf other = indexOf page) : other = page := by
  have hslots := congrArg BitVec.toNat hslot
  have hindices := congrArg BitVec.toNat hindex
  rw [hother.slotOf_toNat, hpage.slotOf_toNat] at hslots
  rw [hother.indexOf_toNat, hpage.indexOf_toNat] at hindices
  omega

/-- The word of a kernel page in its table. -/
def pageEntry (m : Machine) (page : ℕ) : BitVec 32 :=
  m.entry (slotOf page) (indexOf page)

/-- A page whose flags are all clear, as the searches test it. -/
def Free (m : Machine) (page : ℕ) : Prop := pageEntry m page &&& 0xfff = 0

instance (m : Machine) (page : ℕ) : Decidable (Free m page) :=
  inferInstanceAs (Decidable (pageEntry m page &&& 0xfff = 0))

/-- The slot of a page has a table. -/
def Tabled (m : Machine) (page : ℕ) : Prop := m.pde (slotOf page) ≠ 0

theorem getPflags_page {m : Machine} (haddr : Addressable kernelSlots m) {page : ℕ}
    (hpage : KernelPage page) :
    getPflags m (pageAt page) = some (pageEntry m page &&& 0xfff) := by
  have hentry := getEntry_eq haddr hpage.slotOf_mem
  simp only [getPflags, hentry, Option.bind_eq_bind, Option.bind_some]
  rfl

theorem getPaddr_page {m : Machine} (haddr : Addressable kernelSlots m) {page : ℕ}
    (hpage : KernelPage page) :
    getPaddr m (pageAt page) = some (pageEntry m page &&& 0xfffff000) := by
  have hentry := getEntry_eq haddr hpage.slotOf_mem
  simp only [getPaddr, hentry, Option.bind_eq_bind, Option.bind_some]
  rfl

/-! ## The search -/

/-- The lowest run of `count` pages of a set, inside the kernel half. -/
structure FirstFit (free : ℕ → Prop) (count page : ℕ) : Prop where
  low : 0xc0000 ≤ page
  high : page + count ≤ 0xffc00
  run : ∀ j < count, free (page + j)
  lowest : ∀ other, 0xc0000 ≤ other → other < page →
    ∃ j < count, ¬ free (other + j)

theorem FirstFit.congr {free free' : ℕ → Prop} {count page : ℕ}
    (hfit : FirstFit free count page)
    (hsame : ∀ other, KernelPage other → (free' other ↔ free other)) :
    FirstFit free' count page := by
  have hhigh := hfit.high
  constructor
  · exact hfit.low
  · exact hfit.high
  · intro j hj
    have hlow := hfit.low
    exact (hsame _ ⟨by omega, by omega⟩).mpr (hfit.run j hj)
  · intro other hlow hother
    obtain ⟨j, hj, hnot⟩ := hfit.lowest other hlow hother
    exact ⟨j, hj, mt (hsame _ ⟨by omega, by omega⟩).mp hnot⟩

theorem free_of_untabled {m : Machine} {page : ℕ} (huntabled : ¬ Tabled m page) :
    Free m page := by
  rw [Tabled, not_not] at huntabled
  rw [Free, pageEntry, Machine.entry, if_pos huntabled]
  decide

/-- Where there is a run at all, there is a lowest one. -/
theorem exists_firstFit {free : ℕ → Prop} {count page : ℕ} (hlow : 0xc0000 ≤ page)
    (hhigh : page + count ≤ 0xffc00) (hrun : ∀ j < count, free (page + j)) :
    ∃ first, FirstFit free count first := by
  classical
  have hsome : ∃ page, 0xc0000 ≤ page ∧ ∀ j < count, free (page + j) :=
    ⟨page, hlow, hrun⟩
  have hle := Nat.find_min' hsome ⟨hlow, hrun⟩
  obtain ⟨hfoundLow, hfound⟩ := Nat.find_spec hsome
  refine ⟨Nat.find hsome, hfoundLow, by omega, hfound, ?_⟩
  intro other hother hlt
  have hnot := Nat.find_min hsome hlt
  rw [not_and] at hnot
  push Not at hnot
  exact hnot hother

theorem FirstFit.le {free : ℕ → Prop} {count page other : ℕ}
    (hfit : FirstFit free count page) (hlow : 0xc0000 ≤ other)
    (hrun : ∀ j < count, free (other + j)) : page ≤ other := by
  by_contra hlt
  obtain ⟨j, hj, hnot⟩ := hfit.lowest other hlow (by omega)
  exact hnot (hrun j hj)

theorem FirstFit.unique {free : ℕ → Prop} {count page other : ℕ}
    (hfit : FirstFit free count page) (hother : FirstFit free count other) :
    page = other :=
  Nat.le_antisymm (hfit.le hother.low hother.run) (hother.le hfit.low hfit.run)

theorem FirstFit.free {free : ℕ → Prop} {page : ℕ} (hfit : FirstFit free 1 page) :
    free page := hfit.run 0 (by omega)

theorem FirstFit.le_of_free {free : ℕ → Prop} {page other : ℕ}
    (hfit : FirstFit free 1 page) (hother : KernelPage other) (hfree : free other) :
    page ≤ other := by
  apply hfit.le hother.1
  intro j hj
  rwa [show j = 0 by omega]

theorem FirstFit.kernelPage {free : ℕ → Prop} {page : ℕ} (hfit : FirstFit free 1 page) :
    KernelPage page := by
  have hhigh := hfit.high
  exact ⟨hfit.low, by omega⟩

theorem pagesFree_succ {m : Machine} (haddr : Addressable kernelSlots m)
    {page : ℕ} (hpage : KernelPage page) (count : ℕ) :
    pagesFree m page (count + 1) =
      if Free m page then pagesFree m (page + 1) count else some false := by
  simp only [pagesFree, getPflags_page haddr hpage, Option.bind_eq_bind,
    Option.bind_some, ne_eq, ite_not]
  rfl

theorem pagesFree_of_free {m : Machine} (haddr : Addressable kernelSlots m)
    {count page : ℕ} (hlow : 0xc0000 ≤ page) (hhigh : page + count ≤ 0xffc00)
    (hfree : ∀ j < count, Free m (page + j)) :
    pagesFree m page count = some true := by
  induction count generalizing page with
  | zero => rfl
  | succ count ih =>
      have hfirst : Free m page := hfree 0 (by omega)
      have hrest : pagesFree m (page + 1) count = some true := by
        apply ih (by omega) (by omega)
        intro j hj
        have hnext := hfree (j + 1) (by omega)
        rwa [show page + (j + 1) = page + 1 + j by omega] at hnext
      rw [pagesFree_succ haddr ⟨hlow, by omega⟩, if_pos hfirst, hrest]

theorem pagesFree_of_used {m : Machine} (haddr : Addressable kernelSlots m)
    {count page : ℕ} (hlow : 0xc0000 ≤ page) (hhigh : page + count ≤ 0xffc00)
    (hused : ∃ j < count, ¬ Free m (page + j)) :
    pagesFree m page count = some false := by
  induction count generalizing page with
  | zero =>
      obtain ⟨j, hj, -⟩ := hused
      omega
  | succ count ih =>
      rw [pagesFree_succ haddr ⟨hlow, by omega⟩]
      by_cases hfirst : Free m page
      · obtain ⟨j, hj, hnot⟩ := hused
        have hpos : j ≠ 0 := by
          rintro rfl
          exact hnot hfirst
        have hrest : pagesFree m (page + 1) count = some false := by
          apply ih (by omega) (by omega)
          refine ⟨j - 1, by omega, ?_⟩
          rwa [show page + 1 + (j - 1) = page + j by omega]
        rw [if_pos hfirst, hrest]
      · rw [if_neg hfirst]

theorem findPages_eq {m : Machine} (haddr : Addressable kernelSlots m)
    {count page : ℕ} (hfit : FirstFit (Free m) count page) {rounds i : ℕ}
    (hlow : 0xc0000 ≤ i) (hi : i ≤ page) (hrounds : page < i + rounds) :
    findPages m count rounds i = some (some page) := by
  have hhigh := hfit.high
  induction rounds generalizing i with
  | zero => omega
  | succ rounds ih =>
      rw [findPages]
      by_cases hhere : i = page
      · subst hhere
        rw [pagesFree_of_free haddr hlow hhigh hfit.run]
        rfl
      · rw [pagesFree_of_used haddr hlow (by omega)
          (hfit.lowest i hlow (by omega))]
        exact ih (by omega) (by omega) (by omega)

/-- The search finds the lowest run of free pages. -/
theorem searchPages_eq {m : Machine} (haddr : Addressable kernelSlots m)
    {count page : ℕ} (hfit : FirstFit (Free m) count page) :
    searchPages m count = some (some page) := by
  have hlow := hfit.low
  have hhigh := hfit.high
  exact findPages_eq haddr hfit le_rfl hlow (by omega)

/-! ## Windows in tables that exist -/

/-- The word of one page is overwritten in its table. -/
def window (m : Machine) (page : ℕ) (word : BitVec 32) : Machine :=
  m.setWord (frameOf (m.pde (slotOf page))) (indexOf page) word

/-- `map` of a kernel address whose slot has a table. -/
theorem map_kernel {m : Machine} (haddr : Addressable kernelSlots m)
    {vaddr : BitVec 32} (hslot : pdIndex vaddr ∈ kernelSlots)
    (hne : m.pde (pdIndex vaddr) ≠ 0) (paddr flags : BitVec 32) :
    map m vaddr paddr flags =
      some (m.setWord (frameOf (m.pde (pdIndex vaddr))) (ptIndex vaddr)
        (paddr ||| flags)) := by
  simp only [map, newTable_of_ne haddr.recursive hne, widen_eq haddr.recursive,
    not_user_of_kernelSlot hslot, and_false, if_false, Option.bind_eq_bind,
    Option.bind_some]
  exact store_ptAddress haddr.recursive (haddr.present _ hslot hne) _ _

theorem map_page {m : Machine} (haddr : Addressable kernelSlots m) {page : ℕ}
    (hpage : KernelPage page) (htabled : Tabled m page) (paddr flags : BitVec 32) :
    map m (pageAt page) paddr flags = some (window m page (paddr ||| flags)) :=
  map_kernel haddr hpage.slotOf_mem htabled paddr flags

theorem unmap_page {m : Machine} (haddr : Addressable kernelSlots m) {page : ℕ}
    (hpage : KernelPage page) (htabled : Tabled m page) :
    unmap m (pageAt page) = some (window m page 0) := by
  have hpresent := haddr.present _ hpage.slotOf_mem htabled
  have hne : m.pde (pdIndex (pageAt page)) ≠ 0 := htabled
  simp only [unmap, load_pdAddress haddr.recursive, Option.bind_eq_bind,
    Option.bind_some, if_neg hne]
  exact store_ptAddress haddr.recursive hpresent _ _

@[simp]
theorem window_frames (m : Machine) (page : ℕ) (word : BitVec 32) :
    (window m page word).frames = m.frames := rfl

@[simp]
theorem window_directory (m : Machine) (page : ℕ) (word : BitVec 32) :
    (window m page word).directory = m.directory := rfl

@[simp]
theorem window_cr3 (m : Machine) (page : ℕ) (word : BitVec 32) :
    (window m page word).cr3 = m.cr3 := rfl

/-- A window changes no frame but the table of its page. -/
theorem window_mem {m : Machine} {page : ℕ} {frame : BitVec 20}
    (hframe : frame ≠ frameOf (m.pde (slotOf page))) (word : BitVec 32) :
    (window m page word).mem frame = m.mem frame :=
  Function.update_of_ne hframe _ _

theorem window_pde {m : Machine} (haddr : Addressable kernelSlots m) {page : ℕ}
    (hpage : KernelPage page) (htabled : Tabled m page) (word : BitVec 32)
    (slot : BitVec 10) : (window m page word).pde slot = m.pde slot := by
  have hframe := haddr.notDirectory _ hpage.slotOf_mem htabled
  exact congrFun (window_mem hframe.symm word) slot

theorem window_addressable {m : Machine} (haddr : Addressable kernelSlots m)
    {page : ℕ} (hpage : KernelPage page) (htabled : Tabled m page)
    (word : BitVec 32) : Addressable kernelSlots (window m page word) :=
  (sameTables_table (haddr.notDirectory _ hpage.slotOf_mem htabled) _ _).addressable
    haddr

theorem window_entry {m : Machine} (haddr : Addressable kernelSlots m) {page : ℕ}
    (hpage : KernelPage page) (htabled : Tabled m page) (word : BitVec 32)
    {other : ℕ} (hother : KernelPage other) :
    pageEntry (window m page word) other =
      if other = page then word else pageEntry m other := by
  have hentry := entry_setWord haddr hpage.slotOf_mem htabled (indexOf page) word
    hother.slotOf_mem (indexOf other)
  by_cases hsame : other = page
  · subst hsame
    rw [if_pos rfl]
    rwa [if_pos ⟨rfl, rfl⟩] at hentry
  · rw [if_neg hsame]
    rwa [if_neg fun heq => hsame (kernelPage_eq hpage hother heq.1 heq.2)] at hentry

/-- One page for a physical frame, when the page that is found has a table. -/
theorem kmallocPagePaddr_one {m : Machine} (haddr : Addressable kernelSlots m)
    {page : ℕ} (hfit : FirstFit (Free m) 1 page) (htabled : Tabled m page)
    (paddr : BitVec 32) :
    kmallocPagePaddr m paddr 1 =
      some (window m page (paddr ||| linkFlags 0 1), pageAt page) := by
  have hpage := hfit.kernelPage
  have hzero : paddr + BitVec.ofNat 32 0 * 4096 = paddr := by simp
  simp only [kmallocPagePaddr, searchPages_eq haddr hfit, mapWindow,
    Option.bind_eq_bind, Option.bind_some, Nat.add_zero, hzero,
    map_page haddr hpage htabled]

/-! ## Access through a window -/

/-- The address of a word behind a pointer. -/
def wordAt (vaddr : BitVec 32) (index : ℕ) : BitVec 32 :=
  vaddr + BitVec.ofNat 32 (index * 4)

theorem KernelPage.wordAt_toNat {page : ℕ} (hpage : KernelPage page) {index : ℕ}
    (hindex : index < 1024) :
    (wordAt (pageAt page) index).toNat = page * 4096 + index * 4 := by
  have hhigh := hpage.2
  rw [wordAt, BitVec.toNat_add, hpage.pageAt_toNat, BitVec.toNat_ofNat]
  omega

theorem KernelPage.walk_wordAt {page : ℕ} (hpage : KernelPage page) {index : ℕ}
    (hindex : index < 1024) :
    pdIndex (wordAt (pageAt page) index) = slotOf page ∧
      ptIndex (wordAt (pageAt page) index) = indexOf page ∧
      wordIndex (wordAt (pageAt page) index) = BitVec.ofNat 10 index := by
  have hvaddr := hpage.wordAt_toNat hindex
  have hslot := hpage.slotOf_toNat
  have hposition := hpage.indexOf_toNat
  have hhigh := hpage.2
  refine ⟨?_, ?_, ?_⟩
  · apply BitVec.eq_of_toNat_eq
    rw [hslot, pdIndex, BitVec.extractLsb'_toNat, hvaddr, Nat.shiftRight_eq_div_pow]
    omega
  · apply BitVec.eq_of_toNat_eq
    rw [hposition, ptIndex, BitVec.extractLsb'_toNat, hvaddr,
      Nat.shiftRight_eq_div_pow]
    omega
  · apply BitVec.eq_of_toNat_eq
    rw [wordIndex, BitVec.extractLsb'_toNat, hvaddr, Nat.shiftRight_eq_div_pow,
      BitVec.toNat_ofNat]
    omega

/-- A page that is mapped has a table. -/
theorem tabled_of_present {m : Machine} {page : ℕ} {word : BitVec 32}
    (hentry : pageEntry m page = word) (hpresent : present word = true) :
    Tabled m page := by
  intro hempty
  rw [pageEntry, Machine.entry, if_pos hempty] at hentry
  exact ne_zero_of_present hpresent hentry.symm

theorem walk_page {m : Machine} (haddr : Addressable kernelSlots m) {page : ℕ}
    (hpage : KernelPage page) {word : BitVec 32} (hentry : pageEntry m page = word)
    (hpresent : present word = true) {index : ℕ} (hindex : index < 1024) :
    m.walk (wordAt (pageAt page) index) = some (frameOf word) := by
  obtain ⟨hslot, hposition, -⟩ := hpage.walk_wordAt hindex
  have htabled : m.pde (slotOf page) ≠ 0 := tabled_of_present hentry hpresent
  rw [pageEntry, Machine.entry, if_neg htabled] at hentry
  simp only [Machine.walk, hslot, hposition,
    haddr.present _ hpage.slotOf_mem htabled, hentry, hpresent, if_true]

theorem load_page {m : Machine} (haddr : Addressable kernelSlots m) {page : ℕ}
    (hpage : KernelPage page) {word : BitVec 32} (hentry : pageEntry m page = word)
    (hpresent : present word = true) {index : ℕ} (hindex : index < 1024) :
    m.load (wordAt (pageAt page) index) =
      some (m.mem (frameOf word) (BitVec.ofNat 10 index)) := by
  rw [Machine.load, walk_page haddr hpage hentry hpresent hindex,
    (hpage.walk_wordAt hindex).2.2]

theorem store_page {m : Machine} (haddr : Addressable kernelSlots m) {page : ℕ}
    (hpage : KernelPage page) {word : BitVec 32} (hentry : pageEntry m page = word)
    (hpresent : present word = true) {index : ℕ} (hindex : index < 1024)
    (value : BitVec 32) :
    m.store (wordAt (pageAt page) index) value =
      some (m.setWord (frameOf word) (BitVec.ofNat 10 index) value) := by
  rw [Machine.store, walk_page haddr hpage hentry hpresent hindex,
    (hpage.walk_wordAt hindex).2.2]

/-! ## What leaves the kernel pages alone -/

/-- The frame holds the page table of a kernel slot. -/
def IsTable (m : Machine) (frame : BitVec 20) : Prop :=
  ∃ slot ∈ kernelSlots, m.pde slot ≠ 0 ∧ frame = frameOf (m.pde slot)

/-- Two machines with the same directory register and the same kernel pages. -/
structure SamePages (m next : Machine) : Prop where
  directory : next.directory = m.directory
  recursive : next.pde 1023 = m.pde 1023
  pde : ∀ slot ∈ kernelSlots, next.pde slot = m.pde slot
  entry : ∀ page, KernelPage page → pageEntry next page = pageEntry m page

theorem SamePages.trans {m mid next : Machine} (hfirst : SamePages m mid)
    (hsecond : SamePages mid next) : SamePages m next where
  directory := hsecond.directory.trans hfirst.directory
  recursive := hsecond.recursive.trans hfirst.recursive
  pde slot hslot := (hsecond.pde slot hslot).trans (hfirst.pde slot hslot)
  entry page hpage := (hsecond.entry page hpage).trans (hfirst.entry page hpage)

theorem SamePages.addressable {m next : Machine} (hsame : SamePages m next)
    (haddr : Addressable kernelSlots m) : Addressable kernelSlots next where
  recursive := by
    rw [Recursive, hsame.recursive, hsame.directory]
    exact haddr.recursive
  present slot hslot := by
    rw [hsame.pde slot hslot]
    exact haddr.present slot hslot
  notDirectory slot hslot := by
    rw [hsame.pde slot hslot, hsame.directory]
    exact haddr.notDirectory slot hslot
  distinct slot hslot other hother := by
    rw [hsame.pde slot hslot, hsame.pde other hother]
    exact haddr.distinct slot hslot other hother

theorem SamePages.free_iff {m next : Machine} (hsame : SamePages m next)
    {page : ℕ} (hpage : KernelPage page) : Free next page ↔ Free m page := by
  rw [Free, Free, hsame.entry page hpage]

theorem SamePages.isTable_iff {m next : Machine} (hsame : SamePages m next)
    (frame : BitVec 20) : IsTable next frame ↔ IsTable m frame := by
  constructor
  · rintro ⟨slot, hslot, hne, hframe⟩
    rw [hsame.pde slot hslot] at hne hframe
    exact ⟨slot, hslot, hne, hframe⟩
  · rintro ⟨slot, hslot, hne, hframe⟩
    rw [← hsame.pde slot hslot] at hne hframe
    exact ⟨slot, hslot, hne, hframe⟩

theorem samePages_frames (m : Machine) (frames : FrameMap) :
    SamePages m (m.setFrames frames) :=
  ⟨rfl, rfl, fun _ _ => rfl, fun _ _ => rfl⟩

/-- A word outside the kernel tables, and in a directory only below the kernel
half, is read by no walk of a kernel page. -/
theorem samePages_setWord {m : Machine} {frame : BitVec 20} {index : BitVec 10}
    (hdirectory : frame = m.directory → index.toNat < 768)
    (htable : ¬ IsTable m frame) (word : BitVec 32) :
    SamePages m (m.setWord frame index word) := by
  have hpde : ∀ slot : BitVec 10, 768 ≤ slot.toNat →
      (m.setWord frame index word).pde slot = m.pde slot := by
    intro slot hslot
    rw [Machine.pde, setWord_directory, setWord_mem, if_neg]
    · rfl
    · rintro ⟨hframe, hindex⟩
      have := hdirectory hframe.symm
      rw [hindex] at hslot
      omega
  constructor
  · rfl
  · exact hpde 1023 (by decide)
  · intro slot hslot
    exact hpde slot hslot.1
  · intro page hpage
    have hslot := hpde (slotOf page) hpage.slotOf_mem.1
    simp only [pageEntry, Machine.entry, hslot]
    by_cases hempty : m.pde (slotOf page) = 0
    · rw [if_pos hempty, if_pos hempty]
    · rw [if_neg hempty, if_neg hempty, setWord_mem, if_neg]
      rintro ⟨hframe, -⟩
      exact htable ⟨slotOf page, hpage.slotOf_mem, hempty, hframe.symm⟩

/-- The flags of a window are never all clear. -/
theorem not_free_of_present {m : Machine} {page : ℕ} {word : BitVec 32}
    (hentry : pageEntry m page = word) (hpresent : present word = true) :
    ¬ Free m page := by
  intro hfree
  rw [Free, hentry] at hfree
  have hlow := congrArg (fun value : BitVec 32 => value.getLsbD 0) hfree
  have hclear : word.getLsbD 0 = false := by simpa using hlow
  rw [present, hclear] at hpresent
  cases hpresent

theorem present_linkFlags (paddr : BitVec 32) (j sizePgs : ℕ) :
    present (paddr ||| linkFlags j sizePgs) = true := by
  simp [present, linkFlags, ptPresent]

theorem frameOf_linked (paddr : BitVec 32) :
    frameOf (paddr ||| linkFlags 0 1) = frameOf paddr :=
  frameOf_or_flags _ (by decide)

/-- The pages that are free once one of them is mapped. -/
theorem window_free_iff {m : Machine} (haddr : Addressable kernelSlots m)
    {page : ℕ} (hpage : KernelPage page) (htabled : Tabled m page)
    {word : BitVec 32} (hpresent : present word = true) {other : ℕ}
    (hother : KernelPage other) :
    Free (window m page word) other ↔ Free m other ∧ other ≠ page := by
  have hentry := window_entry haddr hpage htabled word hother
  by_cases hsame : other = page
  · rw [if_pos hsame] at hentry
    simp [hsame, not_free_of_present (hsame ▸ hentry) hpresent]
  · rw [if_neg hsame] at hentry
    simp [Free, hentry, hsame]

theorem window_isTable_iff {m : Machine} (haddr : Addressable kernelSlots m)
    {page : ℕ} (hpage : KernelPage page) (htabled : Tabled m page)
    (word : BitVec 32) (frame : BitVec 20) :
    IsTable (window m page word) frame ↔ IsTable m frame := by
  simp only [IsTable, window_pde haddr hpage htabled]

/-- `count` searches for one page, each after the page found before it is
mapped, that all end in a slot with a table. -/
def Windows (tabled : ℕ → Prop) : (ℕ → Prop) → ℕ → Prop
  | _, 0 => True
  | free, count + 1 =>
      ∃ page, FirstFit free 1 page ∧ tabled page ∧
        Windows tabled (fun other => free other ∧ other ≠ page) count

theorem Windows.congr {tabled tabled' free free' : ℕ → Prop} {count : ℕ}
    (hwindows : Windows tabled free count)
    (hfree : ∀ page, KernelPage page → (free' page ↔ free page))
    (htabled : ∀ page, KernelPage page → tabled page → tabled' page) :
    Windows tabled' free' count := by
  induction count generalizing free free' with
  | zero => trivial
  | succ count ih =>
      obtain ⟨page, hfit, hpage, hrest⟩ := hwindows
      have hhigh := hfit.high
      refine ⟨page, hfit.congr hfree, htabled page ⟨hfit.low, by omega⟩ hpage,
        ih hrest ?_⟩
      intro other hother
      rw [hfree other hother]

/-! ## `kfree` of a single page -/

theorem pageAt_aligned (page : ℕ) : pageAt page &&& ~~~0xfff = pageAt page := by
  apply BitVec.eq_of_getLsbD_eq
  intro bit hbit
  simp only [pageAt, BitVec.getLsbD_and, BitVec.getLsbD_shiftLeft,
    BitVec.getLsbD_not, getLsbD_flagMask hbit]
  by_cases hlow : bit < 12
  · simp [hlow]
  · simp [hlow, hbit]

theorem pageFlag_eq (word : BitVec 32) {flag : BitVec 32}
    (hflag : 0xfff &&& flag = flag) : word &&& 0xfff &&& flag = word &&& flag := by
  rw [BitVec.and_assoc, hflag]

/-- Before `heap_init`, a page without links is unmapped and its frame is given
back. -/
theorem kfreePages_one {m : Machine} (haddr : Addressable kernelSlots m) {page : ℕ}
    (hpage : KernelPage page) {word : BitVec 32} (hentry : pageEntry m page = word)
    (hpresent : present word = true) (hlast : word &&& ptLinkL = 0)
    (hnext : word &&& ptLinkN = 0) :
    kfreePages m (pageAt page) = some ((window m page 0).setFrames
      (pmFree m.frames (word &&& 0xfffff000).toNat)) := by
  have hused : word &&& 0xfff ≠ 0 := by
    have hnot := not_free_of_present hentry hpresent
    rwa [Free, hentry] at hnot
  have htabled := tabled_of_present hentry hpresent
  have hlinkL : word &&& 0xfff &&& ptLinkL = 0 := by
    rw [pageFlag_eq word (by decide), hlast]
  have hlinkN : word &&& 0xfff &&& ptLinkN = 0 := by
    rw [pageFlag_eq word (by decide), hnext]
  simp only [kfreePages, firstPage, releasePages, getPflags_page haddr hpage,
    getPaddr_page haddr hpage, hentry, pageAt_aligned,
    unmap_page haddr hpage htabled, hlinkL, hlinkN, if_neg hused,
    Option.bind_eq_bind, Option.bind_some, ne_eq, not_true_eq_false, if_false,
    if_true, window_frames]

end KimisOS.Kmalloc
