import KimisOS.Memory.Fork

/-!
# Releasing pages and windows

`kfree` gives back what `kmalloc` and `kmalloc_page_paddr` handed out.  Before
`heap_init` both hand out pages of the kernel's tables, and `kfree` follows
their links.  From `heap_init` on `kmalloc` hands out blocks of the heap, and
`kfree` takes every address for one of those.
-/

namespace KimisOS.Kfree

open KimisOS.Run
open KimisOS.Frames
open KimisOS.Paging
open KimisOS.HeapMap
open KimisOS.Kmalloc
open KimisOS.Fork

/-! ## The calls -/

def heapAddressToIndex (heap : Heap) (address : UInt32) : ℕ :=
  if address ≥ heap.heapBase + UInt32.ofNat (heap.maxIndex * pageSizeBytes) ∨
      address < heap.heapBase then 2 ^ 32 - 1
  else (address - heap.heapBase).toNat / pageSizeBytes

/-- `heap_pages` of `heap_init`. -/
def heapPages (sizeBytes : UInt32) : UInt32 := (sizeBytes + 4096 - 1) / 4096

/-- `heap_map_size_pages` of `heap_init`. -/
def heapMapSizePages (sizeBytes : UInt32) : UInt32 :=
  (heapPages sizeBytes / 2 + 4096 - 1) / 4096

/-- `heap_init`, with what the block for the map contains.  There is no result
when `kmalloc` fails: without a base the kernel panics, and a null map is
cleared at address 0. -/
def heapInit (kernel : Kernel) (sizeBytes : UInt32) (oldMap : ℕ → BitVec 8) :
    Option Kernel := do
  let sized := { kernel with
    heap := { kernel.heap with heapMapSize := (heapPages sizeBytes / 2).toNat } }
  let (mapped, heapMap) ← kmalloc sized (heapMapSizePages sizeBytes)
  let (based, heapBase) ← kmalloc mapped (heapPages sizeBytes)
  if heapMap = 0 ∨ heapBase = 0 then none
  else some { based with
    heap := HeapMap.heapInit sizeBytes oldMap (UInt32.ofBitVec heapBase) }

/-- Where the frames behind the pages of a pointer come from: `pm_alloc`
returned them to `kmalloc`, or the caller of `kmalloc_page_paddr` named them. -/
inductive Origin where
  | taken (frames : List ℕ)
  | named (paddr : BitVec 32)
  deriving DecidableEq

/-- A pointer into the kernel's tables that was handed out. -/
structure Held where
  addr : BitVec 32
  pages : ℕ
  origin : Origin
  deriving DecidableEq

/-- The frames `kmalloc` had taken for the pointer. -/
def Held.frames (held : Held) : List ℕ :=
  match held.origin with
  | .taken frames => frames
  | .named _ => []

/-- The frame that `pm_alloc` returns in round `k` of `kmalloc`. -/
def takenFrame (m : Machine) (page sizePgs k : ℕ) : ℕ :=
  match mapFresh m page sizePgs k with
  | some (mapped, _) => (pmAlloc mapped.frames).2 / 4096
  | none => 0

/-- The kernel with the pointers that have been handed out and not yet freed:
those into the page tables and those into the heap. -/
structure KfreeState where
  kernel : Kernel
  held : List Held
  blocks : List Block

inductive Call where
  | kmalloc (sizePgs : UInt32)
  | kmallocPagePaddr (paddr : BitVec 32) (sizePgs : UInt32)
  | heapInit (sizeBytes : UInt32) (oldMap : ℕ → BitVec 8)
  | kfree (addr : BitVec 32)

/-- The page a pointer points to. -/
def pageOf (addr : BitVec 32) : ℕ := addr.toNat / 4096

/-- One call.  `kfree` is given a pointer that is live. -/
def step (state : KfreeState) : Call → Option KfreeState
  | .kmalloc sizePgs => do
      let (kernel, addr) ← kmalloc state.kernel sizePgs
      if addr = 0 then some { state with kernel := kernel }
      else if state.kernel.heapOn then
        some { state with
          kernel := kernel
          blocks := ⟨UInt32.ofBitVec addr, sizePgs.toNat⟩ :: state.blocks }
      else
        let frames := (List.range sizePgs.toNat).map
          (takenFrame state.kernel.machine (pageOf addr) sizePgs.toNat)
        some { state with
          kernel := kernel
          held := ⟨addr, sizePgs.toNat, .taken frames⟩ :: state.held }
  | .kmallocPagePaddr paddr sizePgs => do
      let (machine, addr) ←
        kmallocPagePaddr state.kernel.machine paddr sizePgs.toNat
      let kernel := { state.kernel with machine := machine }
      if addr = 0 then some { state with kernel := kernel }
      else
        some { state with
          kernel := kernel
          held := ⟨addr, sizePgs.toNat, .named paddr⟩ :: state.held }
  | .heapInit sizeBytes oldMap => do
      let kernel ← heapInit state.kernel sizeBytes oldMap
      some { state with kernel := kernel }
  | .kfree addr =>
      match state.held.find? (fun held => held.addr = addr) with
      | some held => do
          let kernel ← kfree state.kernel addr
          some { state with kernel := kernel, held := state.held.erase held }
      | none =>
          match state.blocks.find? (fun block => block.addr.toBitVec = addr) with
          | some block => do
              let kernel ← kfree state.kernel addr
              some { state with
                kernel := kernel
                blocks := state.blocks.erase block }
          | none => none

/-! ## What callers keep to -/

/-- `map` finds a page table, or `pm_alloc` a frame for one. -/
def Spares (m : Machine) (page : ℕ) : Prop :=
  Tabled m page ∨ (pmAlloc m.frames).2 ≠ 0

/-- `kmalloc` finds its pages below the recursive slot, and as long as
`pm_alloc` returns frames for them, there is one for every page table. -/
def Placeable (m : Machine) (sizePgs : ℕ) : Prop :=
  ∃ page, FirstFit (Free m) sizePgs page ∧
    ∀ k < sizePgs, ∀ mapped, mapFresh m page sizePgs k = some (mapped, true) →
      Spares (mapped.setFrames (pmAlloc mapped.frames).1) (page + k)

/-- The same for `kmalloc_page_paddr`. -/
def WindowPlaceable (m : Machine) (paddr : BitVec 32) (sizePgs : ℕ) : Prop :=
  ∃ page, FirstFit (Free m) sizePgs page ∧
    ∀ k < sizePgs, ∀ mapped, mapWindow m page sizePgs paddr k = some mapped →
      Spares mapped (page + k)

/-- The frame is neither the directory nor a kernel table, and `kmalloc` has
not taken it for a pointer that is live. -/
def Foreign (state : KfreeState) (frame : BitVec 20) : Prop :=
  frame ≠ state.kernel.machine.directory ∧ ¬ IsTable state.kernel.machine frame ∧
    ∀ other ∈ state.held, frame.toNat ∉ other.frames

/-- Requests are for at least one page and find room; windows are onto whole
frames, and before `heap_init` only those of foreign frames are freed;
`heap_init` is called once. -/
def Admissible (state : KfreeState) : Call → Prop
  | .kmalloc sizePgs => sizePgs ≠ 0 ∧
      (¬ state.kernel.heapOn → Placeable state.kernel.machine sizePgs.toNat) ∧
      (state.kernel.heapOn → Served state.kernel.heap sizePgs.toNat)
  | .kmallocPagePaddr paddr sizePgs => sizePgs ≠ 0 ∧ paddr &&& 0xfff = 0 ∧
      WindowPlaceable state.kernel.machine paddr sizePgs.toNat
  | .heapInit sizeBytes _ => ¬ state.kernel.heapOn ∧
      Placeable state.kernel.machine (heapMapSizePages sizeBytes).toNat ∧
      ∀ mapped addr, kmallocPages state.kernel.machine
          (heapMapSizePages sizeBytes).toNat = some (mapped, addr) →
        Placeable mapped (heapPages sizeBytes).toNat
  | .kfree addr => ¬ state.kernel.heapOn → ∀ held ∈ state.held, held.addr = addr →
      ∀ paddr, held.origin = .named paddr → ∀ k < held.pages,
        Foreign state (frameOf (paddr + BitVec.ofNat 32 k * 4096))

/-- Nothing of a pointer is left: its pages are unmapped and unmarked, and the
frames that `kmalloc` had taken for it are free. -/
structure Released (kernel : Kernel) (held : Held) : Prop where
  unmapped : ∀ k < held.pages,
    getPflags kernel.machine (held.addr + BitVec.ofNat 32 (k * 4096)) = some 0
  unmarked : ∀ k < held.pages, getHeapIndex kernel.heap (heapAddressToIndex kernel.heap
    (UInt32.ofBitVec (held.addr + BitVec.ofNat 32 (k * 4096)))) = 0
  frames : ∀ frame ∈ held.frames, kernel.machine.frames.used frame = false

/-- No page of a block is marked used. -/
def Unmarked (heap : Heap) (block : Block) : Prop :=
  ∀ k < block.pages, getHeapIndex heap (heapAddressToIndex heap (block.page k)) = 0

/-- The kernel as `pm_init` leaves it, with one address space. -/
structure Booted (kernel : Kernel) : Prop where
  shared : SharedHalf {kernel.machine.directory} kernel.machine
  heapOff : ¬ kernel.heapOn
  noHeap : kernel.heap.heapMapSize = 0

/-! ## Mapping pages -/

/-- What a call that maps pages keeps of the rest: the address space, the frames
in use, and no table in a frame that was in use before. -/
structure Extends (m next : Machine) : Prop where
  directory : next.directory = m.directory
  shared : SharedHalf {next.directory} next
  used : ∀ frame, m.frames.used frame = true → next.frames.used frame = true
  tables : ∀ frame, IsTable next frame →
    IsTable m frame ∨ m.frames.used frame.toNat = false

theorem Extends.refl {m : Machine} (hshared : SharedHalf {m.directory} m) :
    Extends m m where
  directory := rfl
  shared := hshared
  used _ hused := hused
  tables _ htable := .inl htable

theorem Extends.trans {m mid next : Machine} (hfirst : Extends m mid)
    (hsecond : Extends mid next) : Extends m next where
  directory := hsecond.directory.trans hfirst.directory
  shared := hsecond.shared
  used frame hused := hsecond.used frame (hfirst.used frame hused)
  tables frame htable := by
    rcases hsecond.tables frame htable with hmid | hfree
    · exact hfirst.tables frame hmid
    · right
      by_contra hused
      rw [hfirst.used _ (by simpa using hused)] at hfree
      cases hfree

theorem Extends.takeFrame {m : Machine} (hshared : SharedHalf {m.directory} m) :
    Extends m (m.setFrames (pmAlloc m.frames).1) where
  directory := rfl
  shared := hshared.takeFrame
  used _ hused := used_pmAlloc m.frames hused
  tables _ htable := .inl htable

/-- A frame in use that is no table stays so. -/
theorem Extends.not_table {m next : Machine} (hextends : Extends m next)
    {frame : BitVec 20} (hused : m.frames.used frame.toNat = true)
    (hnot : ¬ IsTable m frame) : ¬ IsTable next frame := by
  intro htable
  rcases hextends.tables frame htable with hold | hfree
  · exact hnot hold
  · rw [hused] at hfree
    cases hfree

/-- `map` of a kernel page writes its word and no other. -/
theorem map_page_spec {m : Machine} (hshared : SharedHalf {m.directory} m)
    {page : ℕ} (hpage : KernelPage page) (hspares : Spares m page)
    (paddr flags : BitVec 32) :
    ∃ next, map m (pageAt page) paddr flags = some next ∧ Extends m next ∧
      ∀ other, KernelPage other → pageEntry next other =
        if other = page then paddr ||| flags else pageEntry m other := by
  have hwindow : ∀ {start : Machine}, SharedHalf {start.directory} start →
      Tabled start page → Extends start (window start page (paddr ||| flags)) := by
    intro start hstart htabled
    have haddr := hstart.addressable
    constructor
    · rfl
    · exact hstart.window hpage htabled _
    · intro _ hused
      exact hused
    · intro frame htable
      exact .inl ((window_isTable_iff haddr hpage htabled _ frame).mp htable)
  have haddr := hshared.addressable
  by_cases htabled : Tabled m page
  · exact ⟨_, map_page haddr hpage htabled paddr flags, hwindow hshared htabled,
      fun other hother => window_entry haddr hpage htabled _ hother⟩
  · -- the slot gets its table first
    have hserved := hspares.resolve_left htabled
    have hempty : m.pde (slotOf page) = 0 := not_not.mp htabled
    have hfresh := hshared.freshTable hserved
    have halone : Alone {m.directory} m := fun _ hmem => hmem
    have hnew := hshared.tabled halone hempty hserved
    obtain ⟨hne, hmap⟩ :=
      map_of_empty hshared hempty hserved hnew.addressable.recursive paddr flags
    have hextends : Extends m (m.tabled (slotOf page)) := by
      constructor
      · rfl
      · exact hnew
      · intro _ hused
        exact used_pmAlloc m.frames hused
      · rintro frame ⟨slot, hslot, hslotNe, hframe⟩
        rw [tabled_pde hfresh.2.1] at hslotNe hframe
        by_cases hsame : slot = slotOf page
        · rw [if_pos hsame, frameOf_newEntry] at hframe
          right
          rw [hframe]
          exact (pmAlloc_fresh hserved).1
        · rw [if_neg hsame] at hslotNe hframe
          exact .inl ⟨slot, hslot, hslotNe, hframe⟩
    refine ⟨_, hmap.trans (map_page hnew.addressable hpage hne paddr flags),
      hextends.trans (hwindow hnew hne), ?_⟩
    intro other hother
    rw [window_entry hnew.addressable hpage hne _ hother]
    have hold := tabled_entry haddr hempty hfresh.2 hother.slotOf_mem (indexOf other)
    rw [show pageEntry (m.tabled (slotOf page)) other = pageEntry m other from hold]

/-- The pages of a window as `kmalloc` and `kmalloc_page_paddr` link them. -/
def LinkedPages (m : Machine) (page sizePgs count : ℕ) (word : ℕ → BitVec 32) :
    Prop :=
  ∀ k < count, pageEntry m (page + k) = word k ||| linkFlags k sizePgs

/-- The pages outside a range are as they were. -/
def SameOutside (m next : Machine) (page count : ℕ) : Prop :=
  ∀ other, KernelPage other → other < page ∨ page + count ≤ other →
    pageEntry next other = pageEntry m other

theorem mapWindow_spec {m : Machine} (hshared : SharedHalf {m.directory} m)
    {page sizePgs : ℕ} {paddr : BitVec 32} (hlow : 0xc0000 ≤ page)
    (hhigh : page + sizePgs ≤ 0xffc00)
    (hspares : ∀ k < sizePgs, ∀ mapped,
      mapWindow m page sizePgs paddr k = some mapped → Spares mapped (page + k))
    {count : ℕ} (hcount : count ≤ sizePgs) :
    ∃ next, mapWindow m page sizePgs paddr count = some next ∧ Extends m next ∧
      SameOutside m next page count ∧
      LinkedPages next page sizePgs count
        (fun k => paddr + BitVec.ofNat 32 k * 4096) := by
  induction count with
  | zero =>
      exact ⟨m, rfl, .refl hshared, fun _ _ _ => rfl, fun k hk => by omega⟩
  | succ count ih =>
      obtain ⟨mid, hmid, hextends, hsame, hlinked⟩ := ih (by omega)
      have hpage : KernelPage (page + count) := ⟨by omega, by omega⟩
      obtain ⟨next, hmap, hstep, hentry⟩ := map_page_spec hextends.shared hpage
        (hspares count (by omega) mid hmid)
        (paddr + BitVec.ofNat 32 count * 4096) (linkFlags count sizePgs)
      refine ⟨next, ?_, hextends.trans hstep, ?_, ?_⟩
      · simp only [mapWindow, hmid, Option.bind_eq_bind, Option.bind_some, hmap]
      · intro other hother hout
        rw [hentry other hother, if_neg (by omega), hsame other hother (by omega)]
      · intro k hk
        rw [hentry (page + k) ⟨by omega, by omega⟩]
        by_cases hlast : k = count
        · rw [hlast, if_pos rfl]
        · rw [if_neg (by omega), hlinked k (by omega)]

/-- `kmalloc` took the frame while it mapped its pages. -/
structure TookFrame (m next : Machine) (frame : ℕ) : Prop where
  bound : frame < 2 ^ 20
  before : m.frames.used frame = false
  after : next.frames.used frame = true
  notDirectory : BitVec.ofNat 20 frame ≠ next.directory
  notTable : ¬ IsTable next (BitVec.ofNat 20 frame)

theorem toNat_frame {frame : ℕ} (hbound : frame < 2 ^ 20) :
    (BitVec.ofNat 20 frame).toNat = frame := by
  rw [BitVec.toNat_ofNat, Nat.mod_eq_of_lt hbound]

theorem TookFrame.extends {m mid next : Machine} {frame : ℕ}
    (htook : TookFrame m mid frame) (hextends : Extends mid next) :
    TookFrame m next frame where
  bound := htook.bound
  before := htook.before
  after := hextends.used _ htook.after
  notDirectory := by
    rw [hextends.directory]
    exact htook.notDirectory
  notTable := by
    apply hextends.not_table _ htook.notTable
    rw [toNat_frame htook.bound]
    exact htook.after

theorem takenFrame_eq {m mapped : Machine} {page sizePgs k : ℕ} {served : Bool}
    (hmap : mapFresh m page sizePgs k = some (mapped, served)) :
    takenFrame m page sizePgs k = (pmAlloc mapped.frames).2 / 4096 := by
  rw [takenFrame, hmap]

/-- The frame of one round, after `pm_alloc` has returned it. -/
theorem tookFrame_pmAlloc {m mid : Machine} (hextends : Extends m mid)
    (hserved : (pmAlloc mid.frames).2 ≠ 0) :
    (pmAlloc mid.frames).2 / 4096 * 4096 = (pmAlloc mid.frames).2 ∧
      TookFrame m (mid.setFrames (pmAlloc mid.frames).1)
        ((pmAlloc mid.frames).2 / 4096) := by
  rcases pmAlloc_cases mid.frames with hnone | ⟨taken, haddress, hfree, hbound, hafter⟩
  · rw [hnone] at hserved
    exact absurd rfl hserved
  · have hframe : (pmAlloc mid.frames).2 / 4096 = taken := by
      rw [haddress, Nat.mul_div_cancel _ (by decide)]
    have hlt : taken < 2 ^ 20 := by
      unfold mmapCount at hbound
      omega
    rw [hframe]
    refine ⟨haddress.symm, hlt, ?_, ?_, ?_, ?_⟩
    · by_contra hused
      rw [hextends.used taken (by simpa using hused)] at hfree
      cases hfree
    · change (pmAlloc mid.frames).1.used taken = true
      rw [hafter]
      simp
    · intro heq
      have hdirectory := hextends.shared.usedLive _ rfl
      change BitVec.ofNat 20 taken = mid.directory at heq
      rw [← heq, toNat_frame hlt, hfree] at hdirectory
      cases hdirectory
    · intro htable
      have hused := hextends.shared.usedTable _ htable
      rw [toNat_frame hlt, hfree] at hused
      cases hused

theorem mapFresh_spec {m : Machine} (hshared : SharedHalf {m.directory} m)
    {page sizePgs : ℕ} (hlow : 0xc0000 ≤ page) (hhigh : page + sizePgs ≤ 0xffc00)
    (hspares : ∀ k < sizePgs, ∀ mapped,
      mapFresh m page sizePgs k = some (mapped, true) →
      Spares (mapped.setFrames (pmAlloc mapped.frames).1) (page + k))
    {count : ℕ} (hcount : count ≤ sizePgs) {next : Machine} {served : Bool}
    (hmap : mapFresh m page sizePgs count = some (next, served)) :
    Extends m next ∧ SameOutside m next page count ∧
      (served = true →
        LinkedPages next page sizePgs count
          (fun k => BitVec.ofNat 32 (takenFrame m page sizePgs k * 4096)) ∧
        ∀ k < count, TookFrame m next (takenFrame m page sizePgs k)) := by
  induction count generalizing next served with
  | zero =>
      obtain ⟨rfl, rfl⟩ := Prod.mk.inj (Option.some.inj hmap)
      exact ⟨.refl hshared, fun _ _ _ => rfl,
        fun _ => ⟨fun k hk => by omega, fun k hk => by omega⟩⟩
  | succ count ih =>
      simp only [mapFresh, Option.bind_eq_bind, Option.bind_eq_some_iff] at hmap
      obtain ⟨⟨mid, ok⟩, hmid, hround⟩ := hmap
      obtain ⟨hextends, hsame, hserved⟩ := ih (by omega) hmid
      cases ok with
      | false =>
          -- `pm_alloc` had already failed
          obtain ⟨rfl, rfl⟩ := Prod.mk.inj (Option.some.inj hround)
          refine ⟨hextends, ?_, fun hfalse => absurd hfalse (by decide)⟩
          intro other hother hout
          exact hsame other hother (by omega)
      | true =>
          obtain ⟨hlinked, htook⟩ := hserved rfl
          have htaken := hextends.trans (.takeFrame hextends.shared)
          simp only [Bool.true_eq_false, if_false] at hround
          split at hround
          · obtain ⟨flags, -, hlast⟩ := Option.bind_eq_some_iff.mp hround
            split at hlast
            · obtain ⟨rfl, rfl⟩ := Prod.mk.inj (Option.some.inj hlast)
              refine ⟨htaken, ?_, fun hfalse => absurd hfalse (by decide)⟩
              intro other hother hout
              exact hsame other hother (by omega)
            · cases hlast
          · rename_i hphysaddr
            obtain ⟨hwhole, hnew⟩ := tookFrame_pmAlloc hextends hphysaddr
            have hpage : KernelPage (page + count) := ⟨by omega, by omega⟩
            obtain ⟨linked, hlink, hstep, hentry⟩ := map_page_spec htaken.shared hpage
              (hspares count (by omega) mid hmid)
              (BitVec.ofNat 32 (pmAlloc mid.frames).2) (linkFlags count sizePgs)
            rw [hlink] at hround
            obtain ⟨rfl, rfl⟩ := Prod.mk.inj (Option.some.inj hround)
            refine ⟨htaken.trans hstep, ?_, fun _ => ⟨?_, ?_⟩⟩
            · intro other hother hout
              rw [hentry other hother, if_neg (by omega)]
              exact hsame other hother (by omega)
            · intro k hk
              rw [hentry (page + k) ⟨by omega, by omega⟩]
              by_cases hlast : k = count
              · simp only [hlast, if_pos, takenFrame_eq hmid, hwhole]
              · rw [if_neg (by omega)]
                exact hlinked k (by omega)
            · intro k hk
              by_cases hlast : k = count
              · rw [hlast, takenFrame_eq hmid]
                exact hnew.extends hstep
              · exact (htook k (by omega)).extends
                  ((Extends.takeFrame hextends.shared).trans hstep)

/-! ## Releasing pages -/

theorem linkFlags_lt (k sizePgs : ℕ) : linkFlags k sizePgs < 0x1000 := by
  unfold linkFlags
  split <;> split <;> decide

theorem linkFlags_linkL (sizePgs : ℕ) : linkFlags 0 sizePgs &&& ptLinkL = 0 := by
  unfold linkFlags
  split <;> split <;> first | decide | contradiction

theorem linkFlags_linkN (k sizePgs : ℕ) :
    linkFlags k sizePgs &&& ptLinkN = 0 ↔ ¬ k < sizePgs - 1 := by
  unfold linkFlags
  by_cases hnext : k < sizePgs - 1
  · simp only [hnext, not_true_eq_false, iff_false]
    split <;> decide
  · simp only [hnext, not_false_eq_true, iff_true]
    split <;> decide

theorem pageAt_add_page (page : ℕ) : pageAt page + 0x1000 = pageAt (page + 1) := by
  apply BitVec.eq_of_toNat_eq
  simp only [pageAt, BitVec.toNat_add, BitVec.toNat_shiftLeft, BitVec.toNat_ofNat,
    Nat.shiftLeft_eq, BitVec.ofNat_eq_ofNat]
  omega

/-- The pages `j, ..., sizePgs - 1` of a window are unmapped and their frames
given back; nothing else has changed. -/
structure Cleared (m next : Machine) (page sizePgs j : ℕ) (word : ℕ → BitVec 32) :
    Prop where
  addressable : Addressable kernelSlots next
  directory : next.directory = m.directory
  pde : ∀ slot, next.pde slot = m.pde slot
  entry : ∀ other, KernelPage other → pageEntry next other =
    if page + j ≤ other ∧ other < page + sizePgs then 0 else pageEntry m other
  used : ∀ frame, next.frames.used frame = true ↔ m.frames.used frame = true ∧
    ∀ k, j ≤ k → k < sizePgs → frame ≠ (frameOf (word k)).toNat

/-- One page of the second loop of `kfree`. -/
theorem unmap_and_free {m : Machine} (haddr : Addressable kernelSlots m) {page : ℕ}
    (hpage : KernelPage page) {paddr flags : BitVec 32}
    (hentry : pageEntry m page = paddr ||| flags) (hpresent : present flags = true) :
    ∃ next, unmap m (pageAt page) = some next ∧
      Addressable kernelSlots next ∧ next.directory = m.directory ∧
      (∀ slot, next.pde slot = m.pde slot) ∧
      (∀ other, KernelPage other → pageEntry next other =
        if other = page then 0 else pageEntry m other) ∧
      ∀ frame, (pmFree next.frames paddr.toNat).used frame = true ↔
        m.frames.used frame = true ∧ frame ≠ (frameOf paddr).toNat := by
  have htabled : Tabled m page := by
    apply tabled_of_present hentry
    rw [present_or, hpresent, Bool.or_true]
  refine ⟨window m page 0, unmap_page haddr hpage htabled,
    window_addressable haddr hpage htabled 0, rfl, window_pde haddr hpage htabled 0,
    fun other hother => window_entry haddr hpage htabled 0 hother, ?_⟩
  intro frame
  rw [window_frames, used_pmFree, frameOf_toNat]
  simp

theorem releasePages_spec {m : Machine} (haddr : Addressable kernelSlots m)
    {page sizePgs j rounds : ℕ} {word : ℕ → BitVec 32} (hlow : 0xc0000 ≤ page)
    (hhigh : page + sizePgs ≤ 0xffc00) (hj : j < sizePgs)
    (hlinked : ∀ k, j ≤ k → k < sizePgs →
      pageEntry m (page + k) = word k ||| linkFlags k sizePgs)
    (haligned : ∀ k < sizePgs, word k &&& 0xfff = 0)
    (hrounds : sizePgs ≤ j + rounds) :
    ∃ next, releasePages m rounds (pageAt (page + j)) = some next ∧
      Cleared m next page sizePgs j word := by
  induction rounds generalizing m j with
  | zero => omega
  | succ rounds ih =>
      have hpage : KernelPage (page + j) := ⟨by omega, by omega⟩
      have hentry := hlinked j le_rfl hj
      have hflags := flags_of_entry (haligned j hj) (linkFlags_lt j sizePgs)
      have hpaddr := address_of_entry (haligned j hj) (linkFlags_lt j sizePgs)
      have hpresent : present (linkFlags j sizePgs) = true := by
        simpa using present_linkFlags 0 j sizePgs
      obtain ⟨unmapped, hunmap, haddr', hdirectory, hpde, hentries, hused⟩ :=
        unmap_and_free haddr hpage hentry hpresent
      set freed := unmapped.setFrames (pmFree unmapped.frames (word j).toNat)
        with hfreed
      have hround : releasePages m (rounds + 1) (pageAt (page + j)) =
          if linkFlags j sizePgs &&& ptLinkN = 0 then some freed
          else releasePages freed rounds (pageAt (page + (j + 1))) := by
        simp only [releasePages, getPflags_page haddr hpage,
          getPaddr_page haddr hpage, hentry, hflags, hpaddr, hunmap, hfreed,
          Option.bind_eq_bind, Option.bind_some]
        rw [pageAt_add_page]
        rfl
      have hfreedAddr : Addressable kernelSlots freed :=
        (samePages_frames unmapped _).addressable haddr'
      rw [hround]
      by_cases hnext : j < sizePgs - 1
      · rw [if_neg (mt (linkFlags_linkN j sizePgs).mp (not_not.mpr hnext))]
        have hrest : ∀ k, j + 1 ≤ k → k < sizePgs →
            pageEntry freed (page + k) = word k ||| linkFlags k sizePgs := by
          intro k hk hlt
          have := hentries (page + k) ⟨by omega, by omega⟩
          rw [if_neg (by omega)] at this
          exact this.trans (hlinked k (by omega) hlt)
        obtain ⟨next, hnextEq, hcleared⟩ := ih hfreedAddr (by omega) hrest (by omega)
        refine ⟨next, hnextEq, hcleared.addressable,
          hcleared.directory.trans hdirectory,
          fun slot => (hcleared.pde slot).trans (hpde slot), ?_, ?_⟩
        · intro other hother
          have hold : pageEntry freed other = _ := hentries other hother
          rw [hcleared.entry other hother, hold]
          by_cases hhere : other = page + j
          · rw [if_neg (by omega), if_pos hhere, if_pos (by omega)]
          · rw [if_neg hhere]
            by_cases hlater : page + (j + 1) ≤ other ∧ other < page + sizePgs
            · rw [if_pos hlater, if_pos (by omega)]
            · rw [if_neg hlater, if_neg (by omega)]
        · intro frame
          rw [hcleared.used frame]
          change (pmFree unmapped.frames (word j).toNat).used frame = true ∧ _ ↔ _
          rw [hused frame]
          constructor
          · rintro ⟨⟨hold, hhere⟩, hlater⟩
            refine ⟨hold, fun k hk hlt => ?_⟩
            by_cases hfirst : k = j
            · rw [hfirst]
              exact hhere
            · exact hlater k (by omega) hlt
          · rintro ⟨hold, hall⟩
            exact ⟨⟨hold, hall j le_rfl hj⟩, fun k hk hlt => hall k (by omega) hlt⟩
      · rw [if_pos ((linkFlags_linkN j sizePgs).mpr hnext)]
        refine ⟨freed, rfl, hfreedAddr, hdirectory, hpde, ?_, ?_⟩
        · intro other hother
          have hold : pageEntry freed other = _ := hentries other hother
          rw [hold]
          by_cases hhere : other = page + j
          · rw [if_pos hhere, if_pos (by omega)]
          · rw [if_neg hhere, if_neg (by omega)]
        · intro frame
          refine (hused frame).trans (and_congr_right fun _ => ?_)
          constructor
          · intro hhere k hk hlt
            rwa [show k = j by omega]
          · intro hall
            exact hall j le_rfl hj

/-- `kfree` before `heap_init`, at the first page of a window. -/
theorem kfreePages_spec {m : Machine} (haddr : Addressable kernelSlots m)
    {page sizePgs : ℕ} {word : ℕ → BitVec 32} (hlow : 0xc0000 ≤ page)
    (hhigh : page + sizePgs ≤ 0xffc00) (hpos : 0 < sizePgs)
    (hlinked : LinkedPages m page sizePgs sizePgs word)
    (haligned : ∀ k < sizePgs, word k &&& 0xfff = 0) :
    ∃ next, kfreePages m (pageAt page) = some next ∧
      Cleared m next page sizePgs 0 word := by
  have hpage : KernelPage page := ⟨by omega, by omega⟩
  have hentry : pageEntry m page = word 0 ||| linkFlags 0 sizePgs := hlinked 0 hpos
  have hflags := flags_of_entry (haligned 0 hpos) (linkFlags_lt 0 sizePgs)
  have hused : linkFlags 0 sizePgs ≠ 0 := by
    unfold linkFlags
    split <;> split <;> decide
  obtain ⟨next, hrelease, hcleared⟩ : ∃ next,
      releasePages m (2 ^ 20 + 1) (pageAt (page + 0)) = some next ∧
        Cleared m next page sizePgs 0 word :=
    releasePages_spec haddr hlow hhigh hpos (fun k _ hk => hlinked k hk) haligned
      (by omega)
  rw [Nat.add_zero page] at hrelease
  refine ⟨next, ?_, hcleared⟩
  simp only [kfreePages, firstPage, getPflags_page haddr hpage, hentry, hflags,
    pageAt_aligned, linkFlags_linkL, if_neg hused, Option.bind_eq_bind,
    Option.bind_some, ne_eq, not_true_eq_false, if_false, hrelease]

end KimisOS.Kfree
