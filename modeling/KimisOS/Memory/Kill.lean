import KimisOS.Memory.Kmalloc
import KimisOS.Scheduler.Queue

/-!
# What `kill` gives back

`kill` walks the user slots of a page directory through windows in the current
address space.  It looks at no present bit: an empty slot names frame 0, whose
words are then read as a page table, and an absent entry of a table names frame
0 as well.
-/

namespace KimisOS.Kill

open KimisOS.Frames
open KimisOS.Paging
open KimisOS.Kmalloc
open KimisOS.Scheduler

/-! ## The function -/

/-- The inner loop: the frames named by the first words of a table. -/
def freeEntries (m : Machine) (ptPtr : BitVec 32) : ℕ → Option Machine
  | 0 => some m
  | j + 1 => do
      let freed ← freeEntries m ptPtr j
      let word ← freed.load (wordAt ptPtr j)
      some (freed.setFrames (pmFree freed.frames (word &&& ~~~0xfff).toNat))

/-- One round of the outer loop. -/
def freeSlot (kernel : Kernel) (pdPtr : BitVec 32) (i : ℕ) : Option Kernel := do
  let entry ← kernel.machine.load (wordAt pdPtr i)
  let (mapped, ptPtr) ← kmallocPagePaddr kernel.machine entry 1
  let machine ← freeEntries mapped ptPtr 1024
  let kernel ← kfree { kernel with machine := machine } ptPtr
  let entry ← kernel.machine.load (wordAt pdPtr i)
  let freed := kernel.machine.setFrames
    (pmFree kernel.machine.frames (entry &&& ~~~0xfff).toNat)
  let machine ← freed.store (wordAt pdPtr i) 0
  some { kernel with machine := machine }

/-- The first rounds of the outer loop, which starts at slot 1. -/
def freeSlots (kernel : Kernel) (pdPtr : BitVec 32) : ℕ → Option Kernel
  | 0 => some kernel
  | count + 1 => do
      let freed ← freeSlots kernel pdPtr count
      freeSlot freed pdPtr (count + 1)

/-- The part of `kill` that gives back memory. -/
def freeAddressSpace (kernel : Kernel) (pd : BitVec 32) : Option Kernel := do
  let (mapped, pdPtr) ← kmallocPagePaddr kernel.machine pd 1
  let kernel ← freeSlots { kernel with machine := mapped } pdPtr 767
  let kernel ← kfree kernel pdPtr
  some { kernel with
    machine := kernel.machine.setFrames (pmFree kernel.machine.frames pd.toNat) }

structure System where
  kernel : Kernel
  sched : SchedState

/-- The page directory of a process. -/
def System.pageDir (system : System) (pid : ℕ) : BitVec 32 :=
  BitVec.ofNat 32 (system.sched.processes pid).pageDir

def kill (system : System) (pid : ℕ) : Option System := do
  let kernel ← freeAddressSpace system.kernel (system.pageDir pid)
  let sched ← Scheduler.kill system.sched pid
  some { kernel := kernel, sched := sched }

/-! ## The frames of an address space -/

/-- The word of a user slot of a directory. -/
def userSlot (m : Machine) (directory : BitVec 20) (i : ℕ) : BitVec 32 :=
  m.mem directory (BitVec.ofNat 10 i)

/-- The frames a directory owns: itself, the tables of its user slots and what
their present entries map. -/
def Owned (m : Machine) (directory frame : BitVec 20) : Prop :=
  frame = directory ∨ ∃ i, 1 ≤ i ∧ i ≤ 767 ∧
    present (userSlot m directory i) = true ∧
    (frame = frameOf (userSlot m directory i) ∨
      ∃ index, present (m.mem (frameOf (userSlot m directory i)) index) = true ∧
        frame = frameOf (m.mem (frameOf (userSlot m directory i)) index))

/-- The frames the first rounds of the loop name, present or not. -/
def Named (m : Machine) (directory : BitVec 20) (count : ℕ)
    (frame : BitVec 20) : Prop :=
  ∃ i, 1 ≤ i ∧ i ≤ count ∧
    (frame = frameOf (userSlot m directory i) ∨
      ∃ index, frame = frameOf (m.mem (frameOf (userSlot m directory i)) index))

/-! ## One round -/

theorem used_free_address (frames : FrameMap) (word : BitVec 32)
    (frame : BitVec 20) :
    (pmFree frames (word &&& ~~~0xfff).toNat).used frame.toNat = true ↔
      frames.used frame.toNat = true ∧ frame ≠ frameOf word := by
  have hmask : ~~~(0xfff : BitVec 32) = 0xfffff000 := by decide
  rw [hmask, used_pmFree, address_toNat_div]
  simp [BitVec.toNat_inj]

theorem freeEntries_spec {m : Machine} (haddr : Addressable kernelSlots m)
    {page : ℕ} (hpage : KernelPage page) {word : BitVec 32}
    (hentry : pageEntry m page = word) (hpresent : present word = true)
    {count : ℕ} (hcount : count ≤ 1024) :
    ∃ frames, freeEntries m (pageAt page) count =
        some (m.setFrames frames) ∧
      ∀ frame : BitVec 20, frames.used frame.toNat = true ↔
        m.frames.used frame.toNat = true ∧ ∀ j < count,
          frame ≠ frameOf (m.mem (frameOf word) (BitVec.ofNat 10 j)) := by
  induction count with
  | zero => exact ⟨m.frames, rfl, by simp⟩
  | succ count ih =>
      obtain ⟨frames, hfreed, hused⟩ := ih (by omega)
      have hsame := samePages_frames m frames
      have hload := load_page (hsame.addressable haddr) hpage
        ((hsame.entry page hpage).trans hentry) hpresent (show count < 1024 by omega)
      have hround : freeEntries m (pageAt page) (count + 1) = some (m.setFrames
          (pmFree frames (m.mem (frameOf word) (BitVec.ofNat 10 count) &&&
            ~~~0xfff).toNat)) := by
        simp only [freeEntries, hfreed, hload, Option.bind_eq_bind, Option.bind_some]
        rfl
      refine ⟨_, hround, ?_⟩
      intro frame
      rw [used_free_address, hused]
      constructor
      · rintro ⟨⟨hbefore, hothers⟩, hlast⟩
        refine ⟨hbefore, ?_⟩
        intro j hj
        rcases Nat.lt_succ_iff_lt_or_eq.mp hj with hlt | rfl
        · exact hothers j hlt
        · exact hlast
      · rintro ⟨hbefore, hall⟩
        exact ⟨⟨hbefore, fun j hj => hall j (by omega)⟩, hall count (by omega)⟩

/-- All words of a table at once. -/
theorem freeEntries_all {m : Machine} (haddr : Addressable kernelSlots m)
    {page : ℕ} (hpage : KernelPage page) {word : BitVec 32}
    (hentry : pageEntry m page = word) (hpresent : present word = true) :
    ∃ frames, freeEntries m (pageAt page) 1024 =
        some (m.setFrames frames) ∧
      ∀ frame : BitVec 20, frames.used frame.toNat = true ↔
        m.frames.used frame.toNat = true ∧
          ∀ index, frame ≠ frameOf (m.mem (frameOf word) index) := by
  obtain ⟨frames, hfreed, hused⟩ :=
    freeEntries_spec haddr hpage hentry hpresent le_rfl
  refine ⟨frames, hfreed, ?_⟩
  intro frame
  rw [hused]
  constructor
  · rintro ⟨hbefore, hall⟩
    refine ⟨hbefore, ?_⟩
    intro index
    have hindex := hall index.toNat index.isLt
    rwa [BitVec.ofNat_toNat, BitVec.setWidth_eq] at hindex
  · rintro ⟨hbefore, hall⟩
    exact ⟨hbefore, fun j _ => hall _⟩

/-- What `kill` relies on before `heap_init`, where `kfree` follows the link
bits of a window: the words it maps have none. -/
def Unlinked (word : BitVec 32) : Prop :=
  word &&& ptLinkL = 0 ∧ word &&& ptLinkN = 0

theorem heapOn_heapFree (machine : Machine) (heap : HeapMap.Heap) (addr : UInt32) :
    (Kernel.mk machine (HeapMap.heapFree heap addr)).heapOn ↔
      (Kernel.mk machine heap).heapOn := by
  have hshape := HeapMap.heapFree_shape heap addr
  simp only [HeapMap.Heap.shape, Prod.mk.injEq] at hshape
  rw [Kernel.heapOn, Kernel.heapOn, hshape.2.1]

/-- `kfree` of a window: the frame it names is given back and the page is free
again before `heap_init`, and nothing happens after it. -/
theorem kfree_window {kernel : Kernel}
    (haddr : Addressable kernelSlots kernel.machine) {page : ℕ}
    (hpage : KernelPage page) {paddr : BitVec 32}
    (hentry : pageEntry kernel.machine page = paddr ||| linkFlags 0 1)
    (hunlinked : ¬ kernel.heapOn → Unlinked paddr) :
    ∃ freed, kfree kernel (pageAt page) = some freed ∧
      (freed.heapOn ↔ kernel.heapOn) ∧
      (kernel.heapOn → freed.machine = kernel.machine) ∧
      (¬ kernel.heapOn → freed.machine =
        (window kernel.machine page 0).setFrames freed.machine.frames) ∧
      ∀ frame : BitVec 20, frame ≠ frameOf paddr →
        (freed.machine.frames.used frame.toNat = true ↔
          kernel.machine.frames.used frame.toNat = true) := by
  by_cases hheap : kernel.heapOn
  · refine ⟨_, if_pos hheap, heapOn_heapFree _ _ _, fun _ => rfl,
      fun hoff => absurd hheap hoff, fun _ _ => Iff.rfl⟩
  · obtain ⟨hlast, hnext⟩ := hunlinked hheap
    have hlastFlags : (paddr ||| linkFlags 0 1) &&& ptLinkL = 0 := by
      rw [BitVec.and_comm, BitVec.and_or_distrib_left, BitVec.and_comm _ paddr, hlast]
      decide
    have hnextFlags : (paddr ||| linkFlags 0 1) &&& ptLinkN = 0 := by
      rw [BitVec.and_comm, BitVec.and_or_distrib_left, BitVec.and_comm _ paddr, hnext]
      decide
    have hfree := kfreePages_one haddr hpage hentry (present_linkFlags paddr 0 1)
      hlastFlags hnextFlags
    have hflags : linkFlags 0 1 < 0x1000 := by decide
    have hfreed : kfree kernel (pageAt page) = some { kernel with
        machine := (window kernel.machine page 0).setFrames
          (pmFree kernel.machine.frames
            ((paddr ||| linkFlags 0 1) &&& 0xfffff000).toNat) } := by
      simp only [kfree, if_neg hheap, hfree, Option.bind_eq_bind, Option.bind_some]
    refine ⟨_, hfreed, Iff.rfl, fun hon => absurd hon hheap, fun _ => rfl, ?_⟩
    intro frame hframe
    change (pmFree _ _).used _ = true ↔ _
    rw [used_pmFree, address_toNat_div, frameOf_or_flags _ hflags]
    simp [BitVec.toNat_inj, hframe]

/-! ## The loop over the slots -/

/-- The directory and its tables are no page tables of the kernel half, and no
table is the directory. -/
structure Apart (m : Machine) (directory : BitVec 20) : Prop where
  self : ¬ IsTable m directory
  table : ∀ i, 1 ≤ i → i ≤ 767 → ¬ IsTable m (frameOf (userSlot m directory i))
  ne : ∀ i, 1 ≤ i → i ≤ 767 → frameOf (userSlot m directory i) ≠ directory

/-- The machine after the first rounds, but for its frames: the window of the
directory stands, and only cleared slots and words of kernel tables differ. -/
structure Walking (start : Machine) (pd : BitVec 32) (home count : ℕ)
    (m : Machine) : Prop where
  addressable : Addressable kernelSlots m
  pde : ∀ slot ∈ kernelSlots, m.pde slot = start.pde slot
  entry : pageEntry m home = pd ||| linkFlags 0 1
  later : ∀ i, count < i → i ≤ 767 →
    userSlot m (frameOf pd) i = userSlot start (frameOf pd) i
  others : ∀ frame, ¬ IsTable start frame → frame ≠ frameOf pd →
    m.mem frame = start.mem frame

theorem Walking.isTable_iff {start m : Machine} {pd : BitVec 32} {home count : ℕ}
    (hwalk : Walking start pd home count m) (frame : BitVec 20) :
    IsTable m frame ↔ IsTable start frame := by
  constructor
  · rintro ⟨slot, hslot, hne, hframe⟩
    rw [hwalk.pde slot hslot] at hne hframe
    exact ⟨slot, hslot, hne, hframe⟩
  · rintro ⟨slot, hslot, hne, hframe⟩
    rw [← hwalk.pde slot hslot] at hne hframe
    exact ⟨slot, hslot, hne, hframe⟩

theorem Walking.setFrames {start m : Machine} {pd : BitVec 32} {home count : ℕ}
    (hwalk : Walking start pd home count m) (frames : FrameMap) :
    Walking start pd home count (m.setFrames frames) where
  addressable := (samePages_frames m frames).addressable hwalk.addressable
  pde := hwalk.pde
  entry := hwalk.entry
  later := hwalk.later
  others := hwalk.others

/-- A window on another page. -/
theorem Walking.window {start m : Machine} {pd : BitVec 32} {home count : ℕ}
    (hwalk : Walking start pd home count m) (hapart : Apart start (frameOf pd))
    (hhome : KernelPage home) {page : ℕ} (hpage : KernelPage page)
    (htabled : Tabled m page) (hother : page ≠ home) (word : BitVec 32) :
    Walking start pd home count (window m page word) := by
  have haddr := hwalk.addressable
  have htable : IsTable start (frameOf (m.pde (slotOf page))) :=
    (hwalk.isTable_iff _).mp ⟨slotOf page, hpage.slotOf_mem, htabled, rfl⟩
  constructor
  · exact window_addressable haddr hpage htabled word
  · intro slot hslot
    rw [window_pde haddr hpage htabled, hwalk.pde slot hslot]
  · rw [window_entry haddr hpage htabled word hhome, if_neg hother.symm,
      hwalk.entry]
  · intro i hi hlast
    have hframe : frameOf pd ≠ frameOf (m.pde (slotOf page)) := by
      intro heq
      exact hapart.self (heq ▸ htable)
    rw [userSlot, window_mem hframe]
    exact hwalk.later i hi hlast
  · intro frame hnot hne
    have hframe : frame ≠ frameOf (m.pde (slotOf page)) := by
      intro heq
      exact hnot (heq ▸ htable)
    rw [window_mem hframe, hwalk.others frame hnot hne]

/-- The slot of a round is cleared. -/
theorem Walking.clear {start m : Machine} {pd : BitVec 32} {home count : ℕ}
    (hwalk : Walking start pd home count m) (hapart : Apart start (frameOf pd))
    (hhome : KernelPage home) (hcount : count < 767) :
    Walking start pd home (count + 1)
        (m.setWord (frameOf pd) (BitVec.ofNat 10 (count + 1)) 0) ∧
      SamePages m (m.setWord (frameOf pd) (BitVec.ofNat 10 (count + 1)) 0) := by
  have hindex : (BitVec.ofNat 10 (count + 1)).toNat = count + 1 := by
    rw [BitVec.toNat_ofNat]
    omega
  have hsame : SamePages m
      (m.setWord (frameOf pd) (BitVec.ofNat 10 (count + 1)) 0) := by
    apply samePages_setWord
    · intro _
      omega
    · rw [hwalk.isTable_iff]
      exact hapart.self
  refine ⟨?_, hsame⟩
  constructor
  · exact hsame.addressable hwalk.addressable
  · intro slot hslot
    rw [hsame.pde slot hslot, hwalk.pde slot hslot]
  · rw [hsame.entry home hhome, hwalk.entry]
  · intro i hi hlast
    rw [userSlot, setWord_mem, if_neg]
    · exact hwalk.later i (by omega) hlast
    · rintro ⟨-, heq⟩
      have hvalue := congrArg BitVec.toNat heq
      rw [hindex, BitVec.toNat_ofNat] at hvalue
      omega
  · intro frame hnot hne
    rw [← hwalk.others frame hnot hne]
    exact Function.update_of_ne hne _ _

/-- How many more windows the loop leaves behind: `kfree` unmaps them only
before `heap_init`. -/
def windowsLeft (kernel : Kernel) (count : ℕ) : ℕ :=
  if kernel.heapOn then 767 - count else 1

/-- The state between two rounds. -/
structure Killing (start : Machine) (pd : BitVec 32) (home count : ℕ)
    (kernel : Kernel) : Prop where
  walking : Walking start pd home count kernel.machine
  used : ∀ frame : BitVec 20, kernel.machine.frames.used frame.toNat = true ↔
    start.frames.used frame.toNat = true ∧
      ¬ Named start (frameOf pd) count frame
  windows : Windows (Tabled kernel.machine) (Free kernel.machine)
    (windowsLeft kernel count)

theorem named_succ (m : Machine) (directory : BitVec 20) (count : ℕ)
    (frame : BitVec 20) :
    Named m directory (count + 1) frame ↔ Named m directory count frame ∨
      (frame = frameOf (userSlot m directory (count + 1)) ∨
        ∃ index, frame =
          frameOf (m.mem (frameOf (userSlot m directory (count + 1))) index)) := by
  constructor
  · rintro ⟨i, hlow, hhigh, hname⟩
    rcases Nat.le_succ_iff.mp hhigh with hle | rfl
    · exact .inl ⟨i, hlow, hle, hname⟩
    · exact .inr hname
  · rintro (⟨i, hlow, hhigh, hname⟩ | hname)
    · exact ⟨i, hlow, by omega, hname⟩
    · exact ⟨count + 1, by omega, le_rfl, hname⟩

/-- The word a round reads, before and after the table is walked. -/
theorem Walking.load {start m : Machine} {pd : BitVec 32} {home count : ℕ}
    (hwalk : Walking start pd home count m) (hhome : KernelPage home)
    (hcount : count < 767) :
    m.load (wordAt (pageAt home) (count + 1)) =
      some (userSlot start (frameOf pd) (count + 1)) := by
  rw [load_page hwalk.addressable hhome hwalk.entry (present_linkFlags pd 0 1)
    (by omega), frameOf_linked]
  exact congrArg some (hwalk.later (count + 1) (by omega) (by omega))

/-- `kfree` of the window of a table keeps what the loop relies on, and gives
the page back before `heap_init`. -/
theorem Walking.kfree {start : Machine} {pd : BitVec 32} {home count : ℕ}
    (kernel : Kernel) (hwalk : Walking start pd home count kernel.machine)
    (hapart : Apart start (frameOf pd)) (hhome : KernelPage home) {page : ℕ}
    (hpage : KernelPage page) (hother : page ≠ home) {entry : BitVec 32}
    (hentry : pageEntry kernel.machine page = entry ||| linkFlags 0 1)
    (hunlinked : ¬ kernel.heapOn → Unlinked entry) :
    ∃ freed, Kmalloc.kfree kernel (pageAt page) = some freed ∧
      (freed.heapOn ↔ kernel.heapOn) ∧
      Walking start pd home count freed.machine ∧
      (∀ other, KernelPage other → (Free freed.machine other ↔
        Free kernel.machine other ∨ (¬ kernel.heapOn ∧ other = page))) ∧
      ∀ frame : BitVec 20, frame ≠ frameOf entry →
        (freed.machine.frames.used frame.toNat = true ↔
          kernel.machine.frames.used frame.toNat = true) := by
  have htabled := tabled_of_present hentry (present_linkFlags entry 0 1)
  obtain ⟨freed, hfree, hheap, hon, hoff, hused⟩ :=
    kfree_window hwalk.addressable hpage hentry hunlinked
  refine ⟨freed, hfree, hheap, ?_, ?_, hused⟩
  · by_cases hphase : kernel.heapOn
    · rw [hon hphase]
      exact hwalk
    · rw [hoff hphase]
      exact (hwalk.window hapart hhome hpage htabled hother 0).setFrames _
  · intro other hkernel
    by_cases hphase : kernel.heapOn
    · rw [hon hphase]
      simp [hphase]
    · rw [hoff hphase, (samePages_frames _ _).free_iff hkernel, Free,
        window_entry hwalk.addressable hpage htabled 0 hkernel]
      by_cases hsame : other = page
      · simp [hsame, hphase]
      · simp [hsame, Free]

theorem windowsLeft_pos (kernel : Kernel) {count : ℕ} (hcount : count < 767) :
    ∃ left, windowsLeft kernel count = left + 1 := by
  unfold windowsLeft
  split
  · exact ⟨766 - count, by omega⟩
  · exact ⟨0, rfl⟩

/-- After a round that has left its window behind there is one less to come; before
`heap_init` the page is free again. -/
theorem windows_succ {kernel next : Kernel} {count page : ℕ}
    (hheap : next.heapOn ↔ kernel.heapOn) (hcount : count < 767)
    (hfit : FirstFit (Free kernel.machine) 1 page)
    (hwindows : Windows (Tabled kernel.machine) (Free kernel.machine)
      (windowsLeft kernel count))
    (hfree : ∀ other, KernelPage other → (Free next.machine other ↔
      Free kernel.machine other ∧ other ≠ page ∨ ¬ kernel.heapOn ∧ other = page))
    (htabled : ∀ other, KernelPage other → Tabled kernel.machine other →
      Tabled next.machine other) :
    Windows (Tabled next.machine) (Free next.machine) (windowsLeft next (count + 1)) := by
  obtain ⟨left, hleft⟩ := windowsLeft_pos kernel hcount
  rw [hleft] at hwindows
  by_cases hphase : kernel.heapOn
  · obtain ⟨page', hfit', -, hrest⟩ := hwindows
    obtain rfl := hfit'.unique hfit
    have hcounts : windowsLeft next (count + 1) = left := by
      rw [windowsLeft, if_pos hphase] at hleft
      rw [windowsLeft, if_pos (hheap.mpr hphase)]
      omega
    rw [hcounts]
    refine hrest.congr ?_ htabled
    intro other hother
    rw [hfree other hother]
    simp [hphase]
  · have hcounts : windowsLeft next (count + 1) = left + 1 := by
      rw [windowsLeft, if_neg hphase] at hleft
      rw [windowsLeft, if_neg (mt hheap.mp hphase)]
      omega
    rw [hcounts]
    refine hwindows.congr ?_ htabled
    intro other hother
    rw [hfree other hother]
    by_cases hsame : other = page
    · simp [hsame, hphase, hfit.free]
    · simp [hsame]

/-- One round gives back the frames its slot names. -/
theorem Killing.round {start : Machine} {pd : BitVec 32} {home count : ℕ}
    {kernel : Kernel} (hkilling : Killing start pd home count kernel)
    (hapart : Apart start (frameOf pd)) (hhome : KernelPage home)
    (hunlinked : ¬ kernel.heapOn → ∀ i, 1 ≤ i → i ≤ 767 →
      Unlinked (userSlot start (frameOf pd) i))
    (hcount : count < 767) :
    ∃ next, freeSlot kernel (pageAt home) (count + 1) = some next ∧
      (next.heapOn ↔ kernel.heapOn) ∧ Killing start pd home (count + 1) next := by
  obtain ⟨hwalk, hused, hwindows⟩ := hkilling
  set entry := userSlot start (frameOf pd) (count + 1) with hentryDef
  have hnotTable := hapart.table (count + 1) (by omega) (by omega)
  have hne := hapart.ne (count + 1) (by omega) (by omega)
  obtain ⟨page, hfit, htabled⟩ : ∃ page, FirstFit (Free kernel.machine) 1 page ∧
      Tabled kernel.machine page := by
    obtain ⟨left, hleft⟩ := windowsLeft_pos kernel hcount
    rw [hleft] at hwindows
    obtain ⟨page, hfit, htabled, -⟩ := hwindows
    exact ⟨page, hfit, htabled⟩
  have hpage := hfit.kernelPage
  have hother : page ≠ home := by
    rintro rfl
    exact not_free_of_present hwalk.entry (present_linkFlags pd 0 1) hfit.free
  -- the window of the table, and the frames its words name
  set mapped := window kernel.machine page (entry ||| linkFlags 0 1) with hmapped
  have hwalk₁ : Walking start pd home count mapped :=
    hwalk.window hapart hhome hpage htabled hother _
  have hentry₁ : pageEntry mapped page = entry ||| linkFlags 0 1 := by
    rw [hmapped, window_entry hwalk.addressable hpage htabled _ hpage, if_pos rfl]
  obtain ⟨frames, hfreed, hframes⟩ := freeEntries_all hwalk₁.addressable hpage
    hentry₁ (present_linkFlags entry 0 1)
  have htable : mapped.mem (frameOf (entry ||| linkFlags 0 1)) =
      start.mem (frameOf entry) := by
    rw [frameOf_linked, hwalk₁.others _ hnotTable hne]
  -- its window is given back, or left behind
  obtain ⟨freed, hfree, hheap, hwalk₂, hpages, hkept⟩ :=
    Walking.kfree { kernel with machine := mapped.setFrames frames }
      (hwalk₁.setFrames frames) hapart hhome hpage hother hentry₁
      (fun hoff => hunlinked hoff (count + 1) (by omega) (by omega))
  set last := freed.machine.setFrames
    (pmFree freed.machine.frames (entry &&& ~~~0xfff).toNat) with hlast
  have hwalk₃ : Walking start pd home count last := hwalk₂.setFrames _
  have hstore : last.store (wordAt (pageAt home) (count + 1)) 0 =
      some (last.setWord (frameOf pd) (BitVec.ofNat 10 (count + 1)) 0) := by
    rw [store_page hwalk₃.addressable hhome hwalk₃.entry (present_linkFlags pd 0 1)
      (by omega), frameOf_linked]
  obtain ⟨hwalk₄, hsame⟩ := hwalk₃.clear hapart hhome hcount
  refine ⟨{ freed with
    machine := last.setWord (frameOf pd) (BitVec.ofNat 10 (count + 1)) 0 },
    ?_, hheap, hwalk₄, ?_, ?_⟩
  · simp only [freeSlot, hwalk.load hhome hcount,
      kmallocPagePaddr_one hwalk.addressable hfit htabled, ← hentryDef, ← hmapped,
      hfreed, hfree, hwalk₂.load hhome hcount, ← hlast, hstore,
      Option.bind_eq_bind, Option.bind_some]
  · intro frame
    have hmapFrames : ∀ index, mapped.mem (frameOf (entry ||| linkFlags 0 1)) index =
        start.mem (frameOf entry) index := fun index => congrFun htable index
    change (pmFree _ _).used _ = true ↔ _
    rw [used_free_address, named_succ, ← hentryDef]
    by_cases hself : frame = frameOf entry
    · simp [hself]
    · have hmid : freed.machine.frames.used frame.toNat = true ↔
          kernel.machine.frames.used frame.toNat = true ∧
            ∀ index, frame ≠ frameOf (start.mem (frameOf entry) index) := by
        have hbits := hframes frame
        simp only [hmapFrames] at hbits
        exact (hkept frame hself).trans hbits
      rw [hmid, hused]
      simp only [hself, not_false_eq_true, and_true, false_or, not_or, ne_eq,
        not_exists, and_assoc]
  · have hphase : freed.heapOn ↔ kernel.heapOn := hheap
    refine windows_succ hphase hcount hfit hwindows ?_ ?_
    · intro other hkernel
      rw [hsame.free_iff hkernel, (samePages_frames _ _).free_iff hkernel,
        ← window_free_iff hwalk.addressable hpage htabled
          (present_linkFlags entry 0 1) hkernel]
      exact hpages other hkernel
    · intro other hkernel hold
      rw [Tabled, hwalk₄.pde _ hkernel.slotOf_mem, ← hwalk.pde _ hkernel.slotOf_mem]
      exact hold

/-- The rounds of the loop. -/
theorem Killing.rounds {start : Machine} {pd : BitVec 32} {home : ℕ}
    {kernel : Kernel} (hkilling : Killing start pd home 0 kernel)
    (hapart : Apart start (frameOf pd)) (hhome : KernelPage home)
    (hunlinked : ¬ kernel.heapOn → ∀ i, 1 ≤ i → i ≤ 767 →
      Unlinked (userSlot start (frameOf pd) i))
    {count : ℕ} (hcount : count ≤ 767) :
    ∃ next, freeSlots kernel (pageAt home) count = some next ∧
      (next.heapOn ↔ kernel.heapOn) ∧ Killing start pd home count next := by
  induction count with
  | zero => exact ⟨kernel, rfl, Iff.rfl, hkilling⟩
  | succ count ih =>
      obtain ⟨mid, hmid, hheap, hstate⟩ := ih (by omega)
      obtain ⟨next, hnext, hheap', hdone⟩ := hstate.round hapart hhome
        (fun hoff => hunlinked (mt hheap.mpr hoff)) (by omega)
      refine ⟨next, ?_, hheap'.trans hheap, hdone⟩
      simp only [freeSlots, hmid, Option.bind_eq_bind, Option.bind_some, hnext]

/-! ## The whole call -/

/-- What `kill` needs to end: windows for the directory and its tables that are
found in tables that exist, and, before `heap_init`, no link bits in the words
it maps. -/
structure Ready (kernel : Kernel) (pd : BitVec 32) : Prop where
  addressable : Addressable kernelSlots kernel.machine
  apart : Apart kernel.machine (frameOf pd)
  windows : Windows (Tabled kernel.machine) (Free kernel.machine)
    (if kernel.heapOn then 768 else 2)
  unlinked : ¬ kernel.heapOn → Unlinked pd ∧ ∀ i, 1 ≤ i → i ≤ 767 →
    Unlinked (userSlot kernel.machine (frameOf pd) i)

/-- `kill` takes the directory and every frame that its user slots and their
tables name, present or not. -/
theorem freeAddressSpace_spec {kernel : Kernel} {pd : BitVec 32}
    (hready : Ready kernel pd) :
    ∃ next, freeAddressSpace kernel pd = some next ∧
      ∀ frame : BitVec 20, next.machine.frames.used frame.toNat = true ↔
        kernel.machine.frames.used frame.toNat = true ∧ frame ≠ frameOf pd ∧
          ¬ Named kernel.machine (frameOf pd) 767 frame := by
  obtain ⟨haddr, hapart, hwindows, hunlinked⟩ := hready
  obtain ⟨left, hleft⟩ : ∃ left, (if kernel.heapOn then 768 else 2) = left + 1 := by
    split
    · exact ⟨767, rfl⟩
    · exact ⟨1, rfl⟩
  rw [hleft] at hwindows
  obtain ⟨home, hfit, htabled, hrest⟩ := hwindows
  have hhome := hfit.kernelPage
  set mapped := window kernel.machine home (pd ||| linkFlags 0 1) with hmapped
  have hentry : pageEntry mapped home = pd ||| linkFlags 0 1 := by
    rw [hmapped, window_entry haddr hhome htabled _ hhome, if_pos rfl]
  have hnotTable : ∀ frame, ¬ IsTable kernel.machine frame →
      mapped.mem frame = kernel.machine.mem frame := by
    intro frame hnot
    apply window_mem
    intro heq
    exact hnot ⟨slotOf home, hhome.slotOf_mem, htabled, heq⟩
  have hstate : Killing kernel.machine pd home 0 { kernel with machine := mapped } := by
    refine ⟨⟨window_addressable haddr hhome htabled _, ?_, hentry, ?_, ?_⟩, ?_, ?_⟩
    · intro slot _
      exact window_pde haddr hhome htabled _ slot
    · intro i _ _
      rw [userSlot, hnotTable _ hapart.self]
      rfl
    · intro frame hnot _
      exact hnotTable frame hnot
    · intro frame
      have hnone : ¬ Named kernel.machine (frameOf pd) 0 frame := by
        rintro ⟨i, hlow, hhigh, -⟩
        omega
      exact ⟨fun hused => ⟨hused, hnone⟩, fun hused => hused.1⟩
    · have hcounts : windowsLeft { kernel with machine := mapped } 0 = left := by
        rw [windowsLeft]
        change (if kernel.heapOn then 767 - 0 else 1) = left
        split at hleft
        · rename_i hphase
          rw [if_pos hphase]
          omega
        · rename_i hphase
          rw [if_neg hphase]
          omega
      rw [hcounts]
      refine hrest.congr ?_ ?_
      · intro other hkernel
        exact window_free_iff haddr hhome htabled (present_linkFlags pd 0 1) hkernel
      · intro other _ hold
        rw [Tabled, window_pde haddr hhome htabled]
        exact hold
  obtain ⟨looped, hloop, hheap, hdone⟩ := hstate.rounds hapart hhome
    (fun hoff => (hunlinked hoff).2) le_rfl
  obtain ⟨freed, hfree, -, -, -, hkept⟩ := kfree_window hdone.walking.addressable
    hhome hdone.walking.entry (fun hoff => (hunlinked (mt hheap.mpr hoff)).1)
  have hcall : freeAddressSpace kernel pd = some { freed with
      machine := freed.machine.setFrames (pmFree freed.machine.frames pd.toNat) } := by
    simp only [freeAddressSpace, kmallocPagePaddr_one haddr hfit htabled, ← hmapped,
      hloop, hfree, Option.bind_eq_bind, Option.bind_some]
  refine ⟨_, hcall, ?_⟩
  intro frame
  change (pmFree _ _).used _ = true ↔ _
  rw [used_pmFree, ← frameOf_toNat]
  by_cases hself : frame = frameOf pd
  · simp [hself]
  · have hbits := (hkept frame hself).trans (hdone.used frame)
    simpa [hself, BitVec.toNat_inj] using hbits

/-- The bits that were cleared are those of a set of frames, and no other bit
has changed. -/
def FreesExactly (before after : FrameMap) (owned : BitVec 20 → Prop) : Prop :=
  ∀ frame : BitVec 20,
    (before.used frame.toNat = true ∧ after.used frame.toNat = false ↔ owned frame) ∧
      (¬ owned frame → after.used frame.toNat = before.used frame.toNat)

/-- Every frame of the address space is marked allocated, and of the further
frames that its absent entries name none is. -/
def OnlyOwnedNamed (m : Machine) (directory : BitVec 20) : Prop :=
  (∀ frame, Owned m directory frame → m.frames.used frame.toNat = true) ∧
    ∀ frame, Named m directory 767 frame → ¬ Owned m directory frame →
      m.frames.used frame.toNat = false

theorem named_of_owned {m : Machine} {directory frame : BitVec 20}
    (howned : Owned m directory frame) :
    frame = directory ∨ Named m directory 767 frame := by
  rcases howned with hself | ⟨i, hlow, hhigh, -, htable | ⟨index, -, hentry⟩⟩
  · exact .inl hself
  · exact .inr ⟨i, hlow, hhigh, .inl htable⟩
  · exact .inr ⟨i, hlow, hhigh, .inr ⟨index, hentry⟩⟩

theorem freesExactly_iff {m : Machine} {directory : BitVec 20} {after : FrameMap}
    (hafter : ∀ frame : BitVec 20, after.used frame.toNat = true ↔
      m.frames.used frame.toNat = true ∧ frame ≠ directory ∧
        ¬ Named m directory 767 frame) :
    FreesExactly m.frames after (Owned m directory) ↔
      OnlyOwnedNamed m directory := by
  constructor
  · intro hexact
    refine ⟨fun frame howned => ((hexact frame).1.mpr howned).1, ?_⟩
    intro frame hnamed hnot
    have hcleared : after.used frame.toNat = false := by
      rw [← Bool.not_eq_true, hafter]
      exact fun hkept => hkept.2.2 hnamed
    rw [← (hexact frame).2 hnot, hcleared]
  · rintro ⟨hallocated, hothers⟩ frame
    by_cases howned : Owned m directory frame
    · have hcleared : after.used frame.toNat = false := by
        rw [← Bool.not_eq_true, hafter]
        rintro ⟨-, hne, hunnamed⟩
        rcases named_of_owned howned with hself | hnamed
        · exact hne hself
        · exact hunnamed hnamed
      exact ⟨iff_of_true ⟨hallocated frame howned, hcleared⟩ howned,
        fun hnot => absurd howned hnot⟩
    · have hsame : after.used frame.toNat = m.frames.used frame.toNat := by
        rw [Bool.eq_iff_iff, hafter]
        refine ⟨fun hkept => hkept.1, fun hused => ⟨hused, ?_, ?_⟩⟩
        · intro hself
          exact howned (.inl hself)
        · intro hnamed
          rw [hothers frame hnamed howned] at hused
          cases hused
      refine ⟨iff_of_false ?_ howned, fun _ => hsame⟩
      rw [hsame]
      rintro ⟨hused, hfree⟩
      rw [hused] at hfree
      cases hfree

/-- `kill` gives back exactly the frames of the process if and only if those
are all allocated and no other frame that the loop names is. -/
theorem kill_frees_owned_iff (system : System) (pid : ℕ)
    (hready : Ready system.kernel (system.pageDir pid)) :
    (∃ kernel, freeAddressSpace system.kernel (system.pageDir pid) = some kernel) ∧
      ∀ next, kill system pid = some next →
        (FreesExactly system.kernel.machine.frames next.kernel.machine.frames
            (Owned system.kernel.machine (frameOf (system.pageDir pid))) ↔
          OnlyOwnedNamed system.kernel.machine (frameOf (system.pageDir pid))) := by
  obtain ⟨kernel, hfree, hused⟩ := freeAddressSpace_spec hready
  refine ⟨⟨kernel, hfree⟩, ?_⟩
  intro next hkill
  simp only [kill, hfree, Option.bind_eq_bind, Option.bind_some] at hkill
  obtain ⟨sched, -, hnext⟩ := Option.bind_eq_some_iff.mp hkill
  obtain rfl := Option.some.inj hnext
  exact freesExactly_iff hused

/-! ## Two runs -/

/-- A machine with one kernel table in frame 3, and a process whose empty
directory is in frame 2.  Every frame is allocated but for those of a byte. -/
def loneProcess (lowFrames : BitVec 8) : System where
  kernel :=
    { machine :=
        { mem := fun frame index =>
            if frame = 1 ∧ index = 1023 then 0x1001
            else if frame = 1 ∧ index = 768 then 0x3001 else 0
          cr3 := 0x1000
          frames := ⟨fun byte => if byte = 0 then lowFrames else 0xff, 0⟩ }
      heap := ⟨fun _ => 0, 0, 0, 0⟩ }
  sched :=
    { processes := fun _ => ⟨true, false, false, 0, 0, 0x2000, 0⟩
      processQueue := fun _ => 5
      activeProcesses := 1
      currentPid := 0
      queueLength := 1
      currentQueueIndex := 0 }

theorem loneProcess_directory (lowFrames : BitVec 8) :
    (loneProcess lowFrames).kernel.machine.directory = 1 := by
  change frameOf 0x1000 = 1
  decide

theorem loneProcess_pde (lowFrames : BitVec 8) {slot : BitVec 10}
    (hslot : slot ∈ kernelSlots) :
    (loneProcess lowFrames).kernel.machine.pde slot =
      if slot = 768 then 0x3001 else 0 := by
  have hlast : slot ≠ 1023 := by
    rintro rfl
    exact absurd hslot.2 (by decide)
  rw [Machine.pde, loneProcess_directory]
  simp only [loneProcess, hlast, true_and, if_false]

theorem loneProcess_userSlot (lowFrames : BitVec 8) (i : ℕ) :
    userSlot (loneProcess lowFrames).kernel.machine 2 i = 0 := by
  simp [userSlot, loneProcess]

theorem loneProcess_isTable (lowFrames : BitVec 8) (frame : BitVec 20)
    (htable : IsTable (loneProcess lowFrames).kernel.machine frame) : frame = 3 := by
  obtain ⟨slot, hslot, hne, hframe⟩ := htable
  rw [loneProcess_pde lowFrames hslot] at hne hframe
  by_cases heq : slot = 768
  · rw [if_pos heq] at hframe
    rw [hframe]
    decide
  · rw [if_neg heq] at hne
    exact absurd rfl hne

theorem loneProcess_ready (lowFrames : BitVec 8) :
    Ready (loneProcess lowFrames).kernel 0x2000 := by
  have hdirectory : frameOf 0x2000 = 2 := by decide
  have hzero : frameOf 0 = 0 := by decide
  have hheap : ¬ (loneProcess lowFrames).kernel.heapOn := fun hon => hon rfl
  have htabled : ∀ page, KernelPage page → page < 0xc0400 →
      Tabled (loneProcess lowFrames).kernel.machine page := by
    intro page hpage hhigh
    have hslot : slotOf page = 768 := by
      apply BitVec.eq_of_toNat_eq
      rw [hpage.slotOf_toNat]
      have hlow := hpage.1
      change page / 1024 = 768
      omega
    rw [Tabled, loneProcess_pde lowFrames hpage.slotOf_mem, if_pos hslot]
    decide
  have hfree : ∀ page, KernelPage page →
      Free (loneProcess lowFrames).kernel.machine page := by
    intro page hpage
    have hentry : pageEntry (loneProcess lowFrames).kernel.machine page = 0 := by
      rw [pageEntry, Machine.entry, loneProcess_pde lowFrames hpage.slotOf_mem]
      by_cases hslot : slotOf page = 768
      · have hframe : frameOf 0x3001 = 3 := by decide
        rw [if_pos hslot, hframe]
        simp [loneProcess]
      · rw [if_neg hslot, if_pos rfl]
    rw [Free, hentry]
    decide
  constructor
  · constructor
    · rw [Recursive, Machine.pde, loneProcess_directory]
      change present 0x1001 = true ∧ frameOf 0x1001 = 1
      decide
    · intro slot hslot hne
      rw [loneProcess_pde lowFrames hslot] at hne ⊢
      split at hne
      · rename_i heq
        rw [if_pos heq]
        decide
      · exact absurd rfl hne
    · intro slot hslot hne heq
      have htable : frameOf ((loneProcess lowFrames).kernel.machine.pde slot) = 3 :=
        loneProcess_isTable lowFrames _ ⟨slot, hslot, hne, rfl⟩
      rw [htable, loneProcess_directory] at heq
      exact absurd heq (by decide)
    · intro slot hslot other hother hne hne' _
      rw [loneProcess_pde lowFrames hslot] at hne
      rw [loneProcess_pde lowFrames hother] at hne'
      by_cases heq : slot = 768
      · by_cases heq' : other = 768
        · rw [heq, heq']
        · rw [if_neg heq'] at hne'
          exact absurd rfl hne'
      · rw [if_neg heq] at hne
        exact absurd rfl hne
  · rw [hdirectory]
    constructor
    · intro htable
      exact absurd (loneProcess_isTable lowFrames _ htable) (by decide)
    · intro i _ _ htable
      rw [loneProcess_userSlot, hzero] at htable
      exact absurd (loneProcess_isTable lowFrames _ htable) (by decide)
    · intro i _ _
      rw [loneProcess_userSlot, hzero]
      decide
  · rw [if_neg hheap]
    refine ⟨0xc0000, ⟨le_rfl, by decide, ?_, ?_⟩,
      htabled _ ⟨by decide, by decide⟩ (by decide), 0xc0001,
      ⟨by decide, by decide, ?_, ?_⟩,
      htabled _ ⟨by decide, by decide⟩ (by decide), trivial⟩
    · intro j hj
      exact hfree _ ⟨by omega, by omega⟩
    · intro other hlow hother
      omega
    · intro j hj
      exact ⟨hfree _ ⟨by omega, by omega⟩, by omega⟩
    · intro other hlow hother
      exact ⟨0, by omega, fun hnot => hnot.2 (by omega)⟩
  · intro _
    rw [hdirectory]
    refine ⟨⟨by decide, by decide⟩, ?_⟩
    intro i _ _
    rw [loneProcess_userSlot]
    exact ⟨by decide, by decide⟩

theorem loneProcess_owned (lowFrames : BitVec 8) (frame : BitVec 20) :
    Owned (loneProcess lowFrames).kernel.machine 2 frame ↔ frame = 2 := by
  constructor
  · rintro (hself | ⟨i, -, -, hpresent, -⟩)
    · exact hself
    · rw [loneProcess_userSlot] at hpresent
      exact absurd hpresent (by decide)
  · exact .inl

theorem loneProcess_named (lowFrames : BitVec 8) (frame : BitVec 20) :
    Named (loneProcess lowFrames).kernel.machine 2 767 frame ↔ frame = 0 := by
  have hzero : frameOf 0 = 0 := by decide
  have hpage : ∀ index, (loneProcess lowFrames).kernel.machine.mem 0 index = 0 := by
    intro index
    simp [loneProcess]
  constructor
  · rintro ⟨i, -, -, hslot | ⟨index, hentry⟩⟩
    · rw [hslot, loneProcess_userSlot, hzero]
    · rw [hentry, loneProcess_userSlot, hzero, hpage, hzero]
  · intro hframe
    exact ⟨1, le_rfl, by decide, .inl (by rw [hframe, loneProcess_userSlot, hzero])⟩

/-- With frame 0 free, `kill` gives back the directory and nothing else. -/
theorem kill_frees_owned_low_free :
    ∃ next, kill (loneProcess 0xfe) 5 = some next ∧
      FreesExactly (loneProcess 0xfe).kernel.machine.frames
        next.kernel.machine.frames
        (Owned (loneProcess 0xfe).kernel.machine 2) := by
  have hdir : (loneProcess 0xfe).pageDir 5 = 0x2000 := rfl
  have hframe : frameOf 0x2000 = 2 := by decide
  obtain ⟨⟨kernel, hfree⟩, hiff⟩ :=
    kill_frees_owned_iff (loneProcess 0xfe) 5 (loneProcess_ready 0xfe)
  obtain ⟨sched, hsched⟩ : ∃ sched,
      Scheduler.kill (loneProcess 0xfe).sched 5 = some sched := ⟨_, rfl⟩
  have hkill : kill (loneProcess 0xfe) 5 = some ⟨kernel, sched⟩ := by
    simp only [kill, hfree, hsched, Option.bind_eq_bind, Option.bind_some]
  refine ⟨⟨kernel, sched⟩, hkill, ?_⟩
  have hexact := hiff _ hkill
  rw [hdir, hframe] at hexact
  apply hexact.mpr
  constructor
  · intro frame howned
    rw [loneProcess_owned] at howned
    subst howned
    decide
  · intro frame hnamed _
    rw [loneProcess_named] at hnamed
    subst hnamed
    decide

/-- Frame 0 is reserved when the system starts; `kill` of a process without a
single mapping clears its bit. -/
theorem kill_frees_frame_zero :
    ∃ next, kill (loneProcess 0xff) 5 = some next ∧
      ¬ FreesExactly (loneProcess 0xff).kernel.machine.frames
        next.kernel.machine.frames
        (Owned (loneProcess 0xff).kernel.machine 2) := by
  have hframe : frameOf 0x2000 = 2 := by decide
  obtain ⟨kernel, hfree, hused⟩ := freeAddressSpace_spec (loneProcess_ready 0xff)
  obtain ⟨sched, hsched⟩ : ∃ sched,
      Scheduler.kill (loneProcess 0xff).sched 5 = some sched := ⟨_, rfl⟩
  have hcall : freeAddressSpace (loneProcess 0xff).kernel
      ((loneProcess 0xff).pageDir 5) = some kernel := hfree
  refine ⟨⟨kernel, sched⟩, by simp only [kill, hcall, hsched, Option.bind_eq_bind,
    Option.bind_some], ?_⟩
  intro hexact
  have hkept := (hexact 0).2 (by rw [loneProcess_owned]; decide)
  have hreserved : (loneProcess 0xff).kernel.machine.frames.used
      (0 : BitVec 20).toNat = true := by decide
  rw [hreserved] at hkept
  have hbits := (hused 0).mp hkept
  rw [hframe] at hbits
  exact hbits.2.2 ((loneProcess_named 0xff 0).mpr rfl)

end KimisOS.Kill
