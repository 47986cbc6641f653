import KimisOS.Memory.Kill

/-!
# Address spaces that share the kernel half

`fork` gives the child a directory of its own.  `mapdup_full` copies the user
pages and then, slot by slot, the entries of the kernel half; from there on the
two directories share the kernel's page tables.  `map` writes a new table into
the current directory only, so a kernel table that is made later is not
shared.
-/

namespace KimisOS.Fork

open KimisOS.Run
open KimisOS.Frames
open KimisOS.Paging
open KimisOS.Kmalloc
open KimisOS.Scheduler
open KimisOS.Kill

/-! ## `mapdup_full` -/

/-- `memclr` of the first words behind a pointer. -/
def clearWords (m : Machine) (ptr : BitVec 32) : ℕ → Option Machine
  | 0 => some m
  | i + 1 => do
      let cleared ← clearWords m ptr i
      cleared.store (wordAt ptr i) 0

/-- `memcpy` of the first words from one pointer to another. -/
def copyWords (m : Machine) (src dest : BitVec 32) : ℕ → Option Machine
  | 0 => some m
  | i + 1 => do
      let copied ← copyWords m src dest i
      let word ← copied.load (wordAt src i)
      copied.store (wordAt dest i) word

/-- `new_pt_ptr[j]`, once it is known to be present in the old table: a fresh
frame with the old flags gets the contents of the page.  Out of frames, the
kernel panics. -/
def copyPage (m : Machine) (newPtPtr : BitVec 32) (i j : ℕ)
    (flags : BitVec 32) : Option Machine := do
  let (frames, address) := pmAlloc m.frames
  let named ← (m.setFrames frames).store (wordAt newPtPtr j)
    (BitVec.ofNat 32 address ||| flags)
  let entry ← named.load (wordAt newPtPtr j)
  if entry < 4096 then none
  else
    let (mapped, cpy) ← kmallocPagePaddr named (entry &&& ~~~0xfff) 1
    let copied ← copyWords mapped
      (BitVec.ofNat 32 i <<< 22 ||| BitVec.ofNat 32 j <<< 12) cpy 1024
    unmap copied cpy

/-- One round of the inner loop of `mapdup_full`. -/
def copyEntry (m : Machine) (newPtPtr : BitVec 32) (i j : ℕ) :
    Option Machine := do
  let old ← m.load (ptAddress (BitVec.ofNat 10 i) (BitVec.ofNat 10 j))
  let cleared ← m.store (wordAt newPtPtr j) 0
  let old' ← cleared.load (ptAddress (BitVec.ofNat 10 i) (BitVec.ofNat 10 j))
  if present old' then copyPage cleared newPtPtr i j (old &&& 0xfff)
  else some cleared

/-- The first rounds of the inner loop. -/
def copyEntries (m : Machine) (newPtPtr : BitVec 32) (i : ℕ) :
    ℕ → Option Machine
  | 0 => some m
  | j + 1 => do
      let copied ← copyEntries m newPtPtr i j
      copyEntry copied newPtPtr i j

/-- One round of the loop over the user slots. -/
def copySlot (m : Machine) (newPdPtr : BitVec 32) (i : ℕ) : Option Machine := do
  let old ← m.load (pdAddress (BitVec.ofNat 10 i))
  if present (old &&& 0xfff) = false then some m
  else
    let (frames, address) := pmAlloc m.frames
    let named ← (m.setFrames frames).store (wordAt newPdPtr i)
      (BitVec.ofNat 32 address ||| (old &&& 0xfff))
    let entry ← named.load (wordAt newPdPtr i)
    if entry < 4096 then none
    else
      let (mapped, newPtPtr) ← kmallocPagePaddr named entry 1
      let copied ← copyEntries mapped newPtPtr i 1024
      unmap copied newPtPtr

/-- The first rounds of the loop over the user slots, from slot 1 on. -/
def copySlots (m : Machine) (newPdPtr : BitVec 32) : ℕ → Option Machine
  | 0 => some m
  | count + 1 => do
      let copied ← copySlots m newPdPtr count
      copySlot copied newPdPtr (count + 1)

/-- The loop over the kernel half, from slot 768 on. -/
def copyKernel (m : Machine) (newPdPtr : BitVec 32) : ℕ → Option Machine
  | 0 => some m
  | count + 1 => do
      let copied ← copyKernel m newPdPtr count
      let word ← copied.load (pdAddress (BitVec.ofNat 10 (768 + count)))
      copied.store (wordAt newPdPtr (768 + count)) word

/-- The last lines of `mapdup_full`: slot 0 and the recursive slot. -/
def closeDirectory (m : Machine) (newPdPtr : BitVec 32) : Option Machine := do
  let word ← m.load (pdAddress 0)
  let copied ← m.store (wordAt newPdPtr 0) word
  let paddr ← getPaddr copied newPdPtr
  copied.store (wordAt newPdPtr 1023) (paddr ||| ptPresent)

def mapdupFull (m : Machine) (newPdPtr : BitVec 32) : Option Machine := do
  let cleared ← clearWords m newPdPtr 1024
  let users ← copySlots cleared newPdPtr 767
  let kernel ← copyKernel users newPdPtr 256
  closeDirectory kernel newPdPtr

/-! ## `fork` -/

/-- The fields of `cpu_registers_t` in order; `esp` is the eighth and `eax` the
twelfth of 19. -/
abbrev Registers := ℕ → BitVec 32

def registerWords : ℕ := 19

def Registers.esp (regs : Registers) : BitVec 32 := regs 7

/-- `memcpy` of the registers to a pointer. -/
def storeRegisters (m : Machine) (ptr : BitVec 32) (regs : Registers) :
    ℕ → Option Machine
  | 0 => some m
  | i + 1 => do
      let stored ← storeRegisters m ptr regs i
      stored.store (wordAt ptr i) (regs i)

/-- The part of `fork` between `mapdup_full` and `spawn_new_process`: the
registers are written below the stack page, and the windows are unmapped. -/
def placeRegisters (m : Machine) (newPdPtr : BitVec 32) (regs : Registers) :
    Option Machine := do
  let paddr ← getPaddr m regs.esp
  let (mapped, stack) ← kmallocPagePaddr m (paddr - 4096) 2
  let stored ← storeRegisters mapped stack regs registerWords
  let first ← unmap stored newPdPtr
  let second ← unmap first stack
  unmap second (stack - 0x1000)

/-- The new address space: the machine and the address of the directory. -/
def forkMemory (m : Machine) (regs : Registers) :
    Option (Machine × BitVec 32) := do
  let (frames, newPd) := pmAlloc m.frames
  let (mapped, newPdPtr) ←
    kmallocPagePaddr (m.setFrames frames) (BitVec.ofNat 32 newPd) 1
  let copied ← mapdupFull mapped newPdPtr
  let placed ← placeRegisters copied newPdPtr regs
  some (placed, BitVec.ofNat 32 newPd)

/-- `fork` with the registers of the caller; `spawn_new_process` also takes a
page for the file descriptors.  Without a free slot it returns `-1`, and the
writes to `processes[-1]` leave the table. -/
def fork (system : System) (oldregs : Registers) : Option System := do
  let regs : Registers := Function.update oldregs 11 0
  let (machine, newPd) ← forkMemory system.kernel.machine regs
  let (spawned, pid) ←
    spawnNewProcess system.sched (regs.esp).toNat newPd.toNat
  match pid with
  | none => none
  | some retpid =>
      let (kernel, _) ← kmalloc { system.kernel with machine := machine } 1
      some
        { kernel := kernel
          sched := spawned.setProcess retpid
            { spawned.processes spawned.currentPid with
              esp := (regs.esp).toNat
              parent := spawned.currentPid
              pageDir := newPd.toNat } }

/-! ## The events -/

inductive Event where
  | map (vaddr paddr flags : BitVec 32)
  | kmalloc (sizePgs : UInt32)
  | kmallocPagePaddr (paddr : BitVec 32) (sizePgs : ℕ)
  | fork (regs : Registers)
  | schedule (esp : ℕ)

def setMachine (system : System) (machine : Machine) : System :=
  { system with kernel := { system.kernel with machine := machine } }

/-- `schedule` loads `cr3` with the directory of the process it picks. -/
def schedule (system : System) (esp : ℕ) : Option System := do
  let sched ← Scheduler.schedule system.sched esp
  let cr3 := BitVec.ofNat 32 (sched.processes sched.currentPid).pageDir
  some
    { kernel :=
        { system.kernel with machine := { system.kernel.machine with cr3 := cr3 } }
      sched := sched }

def step (system : System) : Event → Option System
  | .map vaddr paddr flags => do
      let machine ← Paging.map system.kernel.machine vaddr paddr flags
      some (setMachine system machine)
  | .kmalloc sizePgs => do
      let (kernel, _) ← Kmalloc.kmalloc system.kernel sizePgs
      some { system with kernel := kernel }
  | .kmallocPagePaddr paddr sizePgs => do
      let (machine, _) ←
        Kmalloc.kmallocPagePaddr system.kernel.machine paddr sizePgs
      some (setMachine system machine)
  | .fork regs => fork system regs
  | .schedule esp => schedule system esp

/-! ## The shared half -/

/-- A set of directories with the same kernel half: each names itself in slot
1023, none is a kernel table, and all of these frames are allocated. -/
structure SharedHalf (live : Set (BitVec 20)) (m : Machine) : Prop where
  current : m.directory ∈ live
  recursive : ∀ directory ∈ live, present (m.mem directory 1023) = true ∧
    frameOf (m.mem directory 1023) = directory
  agree : ∀ directory ∈ live, ∀ slot ∈ kernelSlots,
    m.mem directory slot = m.pde slot
  present : ∀ slot ∈ kernelSlots, m.pde slot ≠ 0 → present (m.pde slot) = true
  distinct : ∀ slot ∈ kernelSlots, ∀ other ∈ kernelSlots, m.pde slot ≠ 0 →
    m.pde other ≠ 0 → frameOf (m.pde slot) = frameOf (m.pde other) → slot = other
  apart : ∀ directory ∈ live, ¬ IsTable m directory
  usedLive : ∀ directory ∈ live, m.frames.used directory.toNat = true
  usedTable : ∀ frame, IsTable m frame → m.frames.used frame.toNat = true

variable {live : Set (BitVec 20)} {m : Machine}

theorem SharedHalf.addressable (hshared : SharedHalf live m) :
    Addressable kernelSlots m where
  recursive := hshared.recursive _ hshared.current
  present := hshared.present
  notDirectory slot hslot hne heq :=
    hshared.apart _ hshared.current ⟨slot, hslot, hne, heq.symm⟩
  distinct := hshared.distinct

theorem SharedHalf.mono {live' : Set (BitVec 20)} (hshared : SharedHalf live m)
    (hsubset : live' ⊆ live) (hcurrent : m.directory ∈ live') :
    SharedHalf live' m where
  current := hcurrent
  recursive directory hdirectory := hshared.recursive directory (hsubset hdirectory)
  agree directory hdirectory := hshared.agree directory (hsubset hdirectory)
  present := hshared.present
  distinct := hshared.distinct
  apart directory hdirectory := hshared.apart directory (hsubset hdirectory)
  usedLive directory hdirectory := hshared.usedLive directory (hsubset hdirectory)
  usedTable := hshared.usedTable

/-- What decides whether a half is shared: the words of the live directories
from slot 768 on, and the frames. -/
theorem SharedHalf.congr {next : Machine} (hshared : SharedHalf live m)
    (hcr3 : next.directory = m.directory)
    (hwords : ∀ directory ∈ live, ∀ slot : BitVec 10, 768 ≤ slot.toNat →
      next.mem directory slot = m.mem directory slot)
    (hframes : ∀ frame : ℕ, m.frames.used frame = true →
      next.frames.used frame = true) :
    SharedHalf live next := by
  have hpde : ∀ slot : BitVec 10, 768 ≤ slot.toNat → next.pde slot = m.pde slot := by
    intro slot hslot
    rw [Machine.pde, hcr3]
    exact hwords _ hshared.current slot hslot
  have htable : ∀ frame, IsTable next frame → IsTable m frame := by
    rintro frame ⟨slot, hslot, hne, hframe⟩
    rw [hpde slot hslot.1] at hne hframe
    exact ⟨slot, hslot, hne, hframe⟩
  constructor
  · rw [hcr3]
    exact hshared.current
  · intro directory hdirectory
    rw [hwords directory hdirectory 1023 (by decide)]
    exact hshared.recursive directory hdirectory
  · intro directory hdirectory slot hslot
    rw [hwords directory hdirectory slot hslot.1, hpde slot hslot.1]
    exact hshared.agree directory hdirectory slot hslot
  · intro slot hslot
    rw [hpde slot hslot.1]
    exact hshared.present slot hslot
  · intro slot hslot other hother
    rw [hpde slot hslot.1, hpde other hother.1]
    exact hshared.distinct slot hslot other hother
  · intro directory hdirectory hnext
    exact hshared.apart directory hdirectory (htable directory hnext)
  · intro directory hdirectory
    exact hframes _ (hshared.usedLive directory hdirectory)
  · intro frame hnext
    exact hframes _ (hshared.usedTable frame (htable frame hnext))

/-- A word in a live directory below the kernel half, or in any other frame. -/
theorem SharedHalf.setWord (hshared : SharedHalf live m) {frame : BitVec 20}
    {index : BitVec 10} (hword : frame ∈ live → index.toNat < 768)
    (word : BitVec 32) : SharedHalf live (m.setWord frame index word) := by
  apply hshared.congr
  · rfl
  · intro directory hdirectory slot hslot
    rw [setWord_mem, if_neg]
    rintro ⟨rfl, rfl⟩
    have := hword hdirectory
    omega
  · intro _ hused
    exact hused

theorem SharedHalf.window (hshared : SharedHalf live m) {page : ℕ}
    (hpage : KernelPage page) (htabled : Tabled m page) (word : BitVec 32) :
    SharedHalf live (window m page word) := by
  apply hshared.setWord
  intro hlive
  exact absurd ⟨slotOf page, hpage.slotOf_mem, htabled, rfl⟩ (hshared.apart _ hlive)

theorem SharedHalf.setFrames (hshared : SharedHalf live m) {frames : FrameMap}
    (hframes : ∀ frame : ℕ, m.frames.used frame = true → frames.used frame = true) :
    SharedHalf live (m.setFrames frames) := by
  apply hshared.congr
  · rfl
  · intro _ _ _ _
    rfl
  · exact hframes

/-- A store whose word is below slot 768 of its page. -/
theorem SharedHalf.store (hshared : SharedHalf live m) {vaddr word : BitVec 32}
    (hindex : (wordIndex vaddr).toNat < 768) {next : Machine}
    (hstore : m.store vaddr word = some next) : SharedHalf live next := by
  unfold Machine.store at hstore
  split at hstore
  · cases hstore
  · obtain rfl := Option.some.inj hstore
    exact hshared.setWord (fun _ => hindex) word

theorem used_pmAlloc (frames : FrameMap) {frame : ℕ}
    (hused : frames.used frame = true) : (pmAlloc frames).1.used frame = true := by
  rcases pmAlloc_cases frames with hnone | ⟨taken, -, -, -, hafter⟩
  · rw [hnone]
    exact hused
  · rw [hafter, hused]
    rfl

/-- A frame that `pm_alloc` returns was not allocated, and now is. -/
theorem pmAlloc_fresh {frames : FrameMap} (hserved : (pmAlloc frames).2 ≠ 0) :
    frames.used (frameOf (BitVec.ofNat 32 (pmAlloc frames).2)).toNat = false ∧
      (pmAlloc frames).1.used
        (frameOf (BitVec.ofNat 32 (pmAlloc frames).2)).toNat = true := by
  rcases pmAlloc_cases frames with hnone | ⟨taken, haddress, hfree, hbound, hafter⟩
  · rw [hnone] at hserved
    exact absurd rfl hserved
  · have hframe : (frameOf (BitVec.ofNat 32 (pmAlloc frames).2)).toNat = taken := by
      rw [frameOf_toNat, haddress, BitVec.toNat_ofNat]
      unfold mmapCount at hbound
      omega
    rw [hframe]
    exact ⟨hfree, by rw [hafter]; simp⟩

theorem nextFrame_ne_zero (hserved : (pmAlloc m.frames).2 ≠ 0) :
    m.nextFrame ≠ 0 := by
  intro hzero
  have hvalue := congrArg BitVec.toNat hzero
  rw [Machine.nextFrame, frameOf_toNat, BitVec.toNat_ofNat] at hvalue
  rcases pmAlloc_cases m.frames with hnone | ⟨taken, haddress, -, hbound, -⟩
  · rw [hnone] at hserved
    exact hserved rfl
  · have hlt : taken * 4096 < 2 ^ 32 := by
      unfold mmapCount at hbound
      omega
    rw [haddress, Nat.mod_eq_of_lt hlt, Nat.mul_div_cancel _ (by decide)] at hvalue
    rw [haddress, hvalue] at hserved
    exact hserved rfl

/-- It is no live directory and no kernel table. -/
theorem SharedHalf.fresh (hshared : SharedHalf live m)
    (hserved : (pmAlloc m.frames).2 ≠ 0) :
    m.nextFrame ∉ live ∧ ¬ IsTable m m.nextFrame := by
  have hfree := (pmAlloc_fresh hserved).1
  constructor
  · intro hlive
    have hused := hshared.usedLive _ hlive
    rw [Machine.nextFrame, hfree] at hused
    cases hused
  · intro htable
    have hused := hshared.usedTable _ htable
    rw [Machine.nextFrame, hfree] at hused
    cases hused

theorem SharedHalf.freshTable (hshared : SharedHalf live m)
    (hserved : (pmAlloc m.frames).2 ≠ 0) : Fresh kernelSlots m := by
  obtain ⟨hnotLive, hnotTable⟩ := hshared.fresh hserved
  refine ⟨nextFrame_ne_zero hserved, ?_, ?_⟩
  · intro heq
    exact hnotLive (heq ▸ hshared.current)
  · intro slot hslot hne heq
    exact hnotTable ⟨slot, hslot, hne, heq.symm⟩

/-! ## `map` in the kernel half -/

/-- `pm_alloc` returns a frame each of the next times. -/
def Succeeds : FrameMap → ℕ → Prop
  | _, 0 => True
  | frames, count + 1 =>
      (pmAlloc frames).2 ≠ 0 ∧ Succeeds (pmAlloc frames).1 count

theorem Succeeds.mono {frames : FrameMap} {count count' : ℕ}
    (hserved : Succeeds frames count) (hle : count' ≤ count) :
    Succeeds frames count' := by
  induction count' generalizing frames count with
  | zero => trivial
  | succ count' ih =>
      cases count with
      | zero => omega
      | succ count => exact ⟨hserved.1, ih hserved.2 (by omega)⟩

/-- The only live directory is the current one. -/
def Alone (live : Set (BitVec 20)) (m : Machine) : Prop :=
  ∀ directory ∈ live, directory = m.directory

/-- A new kernel table in the only live directory. -/
theorem SharedHalf.tabled (hshared : SharedHalf live m) (halone : Alone live m)
    {slot : BitVec 10} (hempty : m.pde slot = 0)
    (hserved : (pmAlloc m.frames).2 ≠ 0) : SharedHalf live (m.tabled slot) := by
  obtain ⟨hnotLive, hnotTable⟩ := hshared.fresh hserved
  have hdirectory : m.nextFrame ≠ m.directory := by
    intro heq
    exact hnotLive (heq ▸ hshared.current)
  have hpde := tabled_pde hdirectory slot
  have hlive : ∀ directory ∈ live, ∀ other,
      (m.tabled slot).mem directory other = (m.tabled slot).pde other := by
    intro directory hmem other
    rw [halone directory hmem]
    rfl
  have htable : ∀ frame, IsTable (m.tabled slot) frame →
      frame = m.nextFrame ∨ IsTable m frame := by
    rintro frame ⟨other, hother, hne, hframe⟩
    rw [hpde] at hne hframe
    by_cases hnew : other = slot
    · rw [if_pos hnew, frameOf_newEntry] at hframe
      exact .inl hframe
    · rw [if_neg hnew] at hne hframe
      exact .inr ⟨other, hother, hne, hframe⟩
  have haddr := tabled_addressable hshared.addressable hempty
    (hshared.freshTable hserved).2
  constructor
  · exact hshared.current
  · intro directory hmem
    rw [hlive directory hmem, halone directory hmem]
    exact haddr.recursive
  · intro directory hmem other _
    exact hlive directory hmem other
  · exact haddr.present
  · exact haddr.distinct
  · intro directory hmem hnew
    rcases htable directory hnew with heq | hold
    · exact hnotLive (heq ▸ hmem)
    · exact hshared.apart directory hmem hold
  · intro directory hmem
    exact used_pmAlloc m.frames (hshared.usedLive directory hmem)
  · intro frame hnew
    rcases htable frame hnew with heq | hold
    · rw [heq]
      exact (pmAlloc_fresh hserved).2
    · exact used_pmAlloc m.frames (hshared.usedTable frame hold)

/-- With an empty slot, `map` is `map` once the slot has got its table. -/
theorem map_of_empty (hshared : SharedHalf live m) {vaddr : BitVec 32}
    (hempty : m.pde (pdIndex vaddr) = 0) (hserved : (pmAlloc m.frames).2 ≠ 0)
    (htabled : Recursive (m.tabled (pdIndex vaddr))) (paddr flags : BitVec 32) :
    (m.tabled (pdIndex vaddr)).pde (pdIndex vaddr) ≠ 0 ∧
      Paging.map m vaddr paddr flags =
        Paging.map (m.tabled (pdIndex vaddr)) vaddr paddr flags := by
  have hdirectory : m.nextFrame ≠ m.directory := by
    intro heq
    exact (hshared.fresh hserved).1 (heq ▸ hshared.current)
  have hne : (m.tabled (pdIndex vaddr)).pde (pdIndex vaddr) ≠ 0 :=
    tabled_ne_zero hdirectory _
  refine ⟨hne, ?_⟩
  have hrec := hshared.addressable.recursive
  simp only [Paging.map, newTable_of_eq hrec hempty hdirectory,
    newTable_of_ne htabled hne, Option.bind_eq_bind, Option.bind_some]

/-- Next to another live directory, a new table is in the current one only. -/
theorem SharedHalf.map_splits (hshared : SharedHalf live m) {vaddr : BitVec 32}
    (hslot : pdIndex vaddr ∈ kernelSlots) (hempty : m.pde (pdIndex vaddr) = 0)
    (hserved : (pmAlloc m.frames).2 ≠ 0) {other : BitVec 20} (hother : other ∈ live)
    (hne : other ≠ m.directory) (paddr flags : BitVec 32) :
    ∃ next, Paging.map m vaddr paddr flags = some next ∧
      next.mem other (pdIndex vaddr) ≠ next.mem m.directory (pdIndex vaddr) := by
  have hfresh := hshared.freshTable hserved
  have haddr := tabled_addressable hshared.addressable hempty hfresh.2
  obtain ⟨hnew, hmap⟩ := map_of_empty hshared hempty hserved haddr.recursive paddr flags
  refine ⟨_, hmap.trans (map_kernel haddr hslot hnew paddr flags), ?_⟩
  have hpde := tabled_pde hfresh.2.1 (pdIndex vaddr) (pdIndex vaddr)
  rw [if_pos rfl] at hpde
  have hotherFrame : other ≠ m.nextFrame := by
    rintro rfl
    exact (hshared.fresh hserved).1 hother
  rw [setWord_mem, setWord_mem, hpde, frameOf_newEntry, if_neg (fun h => hotherFrame h.1),
    if_neg (fun h => hfresh.2.1 h.1.symm), tabled_mem, if_neg hotherFrame,
    if_neg (fun h => hne h.1), hshared.agree other hother _ hslot, hempty]
  change _ ≠ (m.tabled (pdIndex vaddr)).pde (pdIndex vaddr)
  exact hnew.symm

/-- What a call leaves of the directory: its register, its tables, and frames
that were allocated. -/
structure Grows (m next : Machine) : Prop where
  directory : next.directory = m.directory
  tables : ∀ slot ∈ kernelSlots, m.pde slot ≠ 0 → next.pde slot ≠ 0

theorem SharedHalf.map_tabled (hshared : SharedHalf live m) {vaddr : BitVec 32}
    (hslot : pdIndex vaddr ∈ kernelSlots) (hne : m.pde (pdIndex vaddr) ≠ 0)
    (paddr flags : BitVec 32) :
    ∃ next, Paging.map m vaddr paddr flags = some next ∧ SharedHalf live next ∧
      Grows m next ∧ next.frames = m.frames := by
  have haddr := hshared.addressable
  have hframe := haddr.notDirectory _ hslot hne
  refine ⟨_, map_kernel haddr hslot hne paddr flags, ?_, ⟨rfl, ?_⟩, rfl⟩
  · apply hshared.setWord
    intro hlive
    exact absurd ⟨pdIndex vaddr, hslot, hne, rfl⟩ (hshared.apart _ hlive)
  · intro slot _ hold
    rwa [show (m.setWord _ (ptIndex vaddr) (paddr ||| flags)).pde slot = m.pde slot
      from setTable_pde hframe _ slot]

/-- `map` of a kernel address keeps the half shared, unless it makes a table
that another live directory does not get. -/
theorem SharedHalf.map (hshared : SharedHalf live m) {vaddr : BitVec 32}
    (hslot : pdIndex vaddr ∈ kernelSlots)
    (htable : m.pde (pdIndex vaddr) ≠ 0 ∨
      Alone live m ∧ (pmAlloc m.frames).2 ≠ 0) (paddr flags : BitVec 32) :
    ∃ next, Paging.map m vaddr paddr flags = some next ∧ SharedHalf live next ∧
      Grows m next ∧
      (next.frames = m.frames ∨ next.frames = (pmAlloc m.frames).1) := by
  by_cases hne : m.pde (pdIndex vaddr) = 0
  · obtain ⟨halone, hserved⟩ := htable.resolve_left (fun hnot => hnot hne)
    have hdirectory : m.nextFrame ≠ m.directory := by
      intro heq
      exact (hshared.fresh hserved).1 (heq ▸ hshared.current)
    have htabled := hshared.tabled halone hne hserved
    obtain ⟨hnew, hmap⟩ := map_of_empty hshared hne hserved
      htabled.addressable.recursive paddr flags
    obtain ⟨next, hnext, hresult, hgrows, hframes⟩ :=
      htabled.map_tabled hslot hnew paddr flags
    refine ⟨next, hmap.trans hnext, hresult, ⟨hgrows.directory, ?_⟩, .inr hframes⟩
    intro slot hmem hold
    apply hgrows.tables slot hmem
    rw [tabled_pde hdirectory]
    split
    · rename_i heq
      rw [heq] at hold
      exact absurd hne hold
    · exact hold
  · obtain ⟨next, hnext, hresult, hgrows, hframes⟩ :=
      hshared.map_tabled hslot hne paddr flags
    exact ⟨next, hnext, hresult, hgrows, .inl hframes⟩

theorem Grows.refl (m : Machine) : Grows m m := ⟨rfl, fun _ _ hne => hne⟩

theorem Grows.trans {m mid next : Machine} (hfirst : Grows m mid)
    (hsecond : Grows mid next) : Grows m next where
  directory := hsecond.directory.trans hfirst.directory
  tables slot hslot hne := hsecond.tables slot hslot (hfirst.tables slot hslot hne)

theorem Grows.alone {m next : Machine} (hgrows : Grows m next)
    (halone : Alone live m) : Alone live next := by
  intro directory hmem
  rw [hgrows.directory]
  exact halone directory hmem

/-- Every page of a window has a table, or the current directory is the only
one and `pm_alloc` returns enough frames for the tables it makes. -/
def Room (live : Set (BitVec 20)) (m : Machine) (page sizePgs allocs : ℕ) : Prop :=
  (∀ j < sizePgs, Tabled m (page + j)) ∨ Alone live m ∧ Succeeds m.frames allocs

/-- One page of a window. -/
theorem SharedHalf.mapPage (hshared : SharedHalf live m) {page sizePgs j allocs : ℕ}
    (hlow : 0xc0000 ≤ page) (hhigh : page + sizePgs ≤ 0xffc00) (hj : j < sizePgs)
    (hroom : Room live m page sizePgs (allocs + 1)) (paddr flags : BitVec 32) :
    ∃ next, Paging.map m (pageAt (page + j)) paddr flags = some next ∧
      SharedHalf live next ∧ Grows m next ∧
      Room live next page sizePgs allocs := by
  have hpage : KernelPage (page + j) := ⟨by omega, by omega⟩
  rcases hroom with htabled | ⟨halone, hserved⟩
  · obtain ⟨next, hmap, hnext, hgrows, -⟩ :=
      hshared.map_tabled hpage.slotOf_mem (htabled j hj) paddr flags
    refine ⟨next, hmap, hnext, hgrows, .inl ?_⟩
    intro k hk
    have hother : KernelPage (page + k) := ⟨by omega, by omega⟩
    exact hgrows.tables _ hother.slotOf_mem (htabled k hk)
  · obtain ⟨next, hmap, hnext, hgrows, hframes⟩ :=
      hshared.map hpage.slotOf_mem (.inr ⟨halone, hserved.1⟩) paddr flags
    refine ⟨next, hmap, hnext, hgrows, .inr ⟨hgrows.alone halone, ?_⟩⟩
    rcases hframes with hsame | htaken
    · rw [hsame]
      exact hserved.mono (by omega)
    · rw [htaken]
      exact hserved.2

theorem SharedHalf.mapWindow (hshared : SharedHalf live m)
    {page sizePgs count allocs : ℕ} (hlow : 0xc0000 ≤ page)
    (hhigh : page + sizePgs ≤ 0xffc00) (hcount : count ≤ sizePgs)
    (hroom : Room live m page sizePgs (allocs + count)) (paddr : BitVec 32) :
    ∃ next, Kmalloc.mapWindow m page sizePgs paddr count = some next ∧
      SharedHalf live next ∧ Grows m next ∧
      Room live next page sizePgs allocs := by
  induction count generalizing allocs with
  | zero => exact ⟨m, rfl, hshared, .refl m, hroom⟩
  | succ count ih =>
      have hmore : Room live m page sizePgs (allocs + 1 + count) := by
        rwa [show allocs + 1 + count = allocs + (count + 1) by omega]
      obtain ⟨mid, hmid, hmidShared, hmidGrows, hmidRoom⟩ := ih (by omega) hmore
      obtain ⟨next, hmap, hnext, hgrows, hleft⟩ := hmidShared.mapPage hlow hhigh
        (show count < sizePgs by omega) hmidRoom
        (paddr + BitVec.ofNat 32 count * 4096) (linkFlags count sizePgs)
      refine ⟨next, ?_, hnext, hmidGrows.trans hgrows, hleft⟩
      simp only [Kmalloc.mapWindow, hmid, Option.bind_eq_bind, Option.bind_some, hmap]

/-- `kmalloc_page_paddr` keeps the half shared. -/
theorem SharedHalf.kmallocPagePaddr (hshared : SharedHalf live m)
    {page sizePgs : ℕ} (hfit : FirstFit (Free m) sizePgs page)
    (hroom : Room live m page sizePgs sizePgs) (paddr : BitVec 32) :
    ∃ next, Kmalloc.kmallocPagePaddr m paddr sizePgs = some (next, pageAt page) ∧
      SharedHalf live next ∧ Grows m next := by
  have henough : Room live m page sizePgs (0 + sizePgs) := by rwa [Nat.zero_add]
  obtain ⟨next, hmap, hnext, hgrows, -⟩ :=
    hshared.mapWindow hfit.low hfit.high le_rfl henough paddr
  refine ⟨next, ?_, hnext, hgrows⟩
  simp only [Kmalloc.kmallocPagePaddr, searchPages_eq hshared.addressable hfit, hmap,
    Option.bind_eq_bind, Option.bind_some]

/-- A data frame is taken. -/
theorem SharedHalf.takeFrame (hshared : SharedHalf live m) :
    SharedHalf live (m.setFrames (pmAlloc m.frames).1) :=
  hshared.setFrames fun _ hused => used_pmAlloc m.frames hused

theorem Room.takeFrame {page sizePgs allocs : ℕ}
    (hroom : Room live m page sizePgs (allocs + 1)) :
    Room live (m.setFrames (pmAlloc m.frames).1) page sizePgs allocs := by
  rcases hroom with htabled | ⟨halone, hserved⟩
  · exact .inl htabled
  · exact .inr ⟨halone, hserved.2⟩

theorem SharedHalf.mapFresh (hshared : SharedHalf live m)
    {page sizePgs count allocs : ℕ} (hlow : 0xc0000 ≤ page)
    (hhigh : page + sizePgs ≤ 0xffc00) (hcount : count ≤ sizePgs)
    (hroom : Room live m page sizePgs (allocs + 2 * count))
    {next : Machine} {served : Bool}
    (hmap : Kmalloc.mapFresh m page sizePgs count = some (next, served)) :
    SharedHalf live next ∧ Grows m next ∧
      (served = true → Room live next page sizePgs allocs) := by
  induction count generalizing allocs next served with
  | zero =>
      obtain ⟨rfl, rfl⟩ := Prod.mk.inj (Option.some.inj hmap)
      exact ⟨hshared, .refl m, fun _ => hroom⟩
  | succ count ih =>
      have hmore : Room live m page sizePgs (allocs + 2 + 2 * count) := by
        rwa [show allocs + 2 + 2 * count = allocs + 2 * (count + 1) by omega]
      simp only [Kmalloc.mapFresh, Option.bind_eq_bind, Option.bind_eq_some_iff]
        at hmap
      obtain ⟨⟨mid, ok⟩, hmid, hround⟩ := hmap
      obtain ⟨hmidShared, hmidGrows, hmidRoom⟩ := ih (by omega) hmore hmid
      cases ok with
      | false =>
          obtain ⟨rfl, rfl⟩ := Prod.mk.inj (Option.some.inj hround)
          exact ⟨hmidShared, hmidGrows, fun hfalse => absurd hfalse (by decide)⟩
      | true =>
          have htaken := hmidShared.takeFrame
          have hgrown : Grows m (mid.setFrames (pmAlloc mid.frames).1) :=
            hmidGrows.trans ⟨rfl, fun _ _ hne => hne⟩
          simp only [Bool.true_eq_false, if_false] at hround
          split at hround
          · obtain ⟨flags, -, hlast⟩ := Option.bind_eq_some_iff.mp hround
            split at hlast
            · obtain ⟨rfl, rfl⟩ := Prod.mk.inj (Option.some.inj hlast)
              exact ⟨htaken, hgrown, fun hfalse => absurd hfalse (by decide)⟩
            · cases hlast
          · have hroom' : Room live (mid.setFrames (pmAlloc mid.frames).1) page
                sizePgs (allocs + 1) := Room.takeFrame (hmidRoom rfl)
            obtain ⟨linked, hlinked, hshared', hgrows, hleft⟩ := htaken.mapPage hlow
              hhigh (show count < sizePgs by omega) hroom'
              (BitVec.ofNat 32 (pmAlloc mid.frames).2) (linkFlags count sizePgs)
            rw [hlinked] at hround
            obtain ⟨rfl, rfl⟩ := Prod.mk.inj (Option.some.inj hround)
            exact ⟨hshared', hgrown.trans hgrows, fun _ => hleft⟩

/-- `kmalloc` before `heap_init` keeps the half shared. -/
theorem SharedHalf.kmallocPages (hshared : SharedHalf live m)
    {page sizePgs : ℕ} (hfit : FirstFit (Free m) sizePgs page)
    (hroom : Room live m page sizePgs (2 * sizePgs)) {next : Machine}
    {addr : BitVec 32}
    (hcall : Kmalloc.kmallocPages m sizePgs = some (next, addr)) :
    SharedHalf live next ∧ Grows m next := by
  have henough : Room live m page sizePgs (0 + 2 * sizePgs) := by rwa [Nat.zero_add]
  simp only [Kmalloc.kmallocPages, searchPages_eq hshared.addressable hfit,
    Option.bind_eq_bind, Option.bind_some, Option.bind_eq_some_iff] at hcall
  obtain ⟨⟨mapped, served⟩, hmap, hresult⟩ := hcall
  obtain ⟨rfl, -⟩ := Prod.mk.inj (Option.some.inj hresult)
  obtain ⟨hnext, hgrows, -⟩ :=
    hshared.mapFresh hfit.low hfit.high le_rfl henough hmap
  exact ⟨hnext, hgrows⟩

/-! ## The windows of `mapdup_full` -/

/-- A copy in progress.  Each held window is a page that was free and the word
that maps it, onto an allocated frame that is no live directory and no kernel
table; the live directories are as they were at the start. -/
structure Holding (live : Set (BitVec 20)) (start : Machine)
    (held : List (ℕ × BitVec 32)) (m : Machine) : Prop where
  shared : SharedHalf live m
  cr3 : m.directory = start.directory
  live_eq : ∀ directory ∈ live, m.mem directory = start.mem directory
  free : ∀ page, KernelPage page →
    (Free m page ↔ Free start page ∧ ∀ window ∈ held, window.1 ≠ page)
  page : ∀ window ∈ held, KernelPage window.1 ∧ Free start window.1
  entry : ∀ window ∈ held, pageEntry m window.1 = window.2
  present : ∀ window ∈ held, Paging.present window.2 = true
  apart : ∀ window ∈ held, frameOf window.2 ∉ live ∧
    ¬ IsTable start (frameOf window.2)
  used : ∀ window ∈ held, m.frames.used (frameOf window.2).toNat = true

variable {start : Machine} {held : List (ℕ × BitVec 32)}

theorem Holding.pde (hholding : Holding live start held m) (slot : BitVec 10) :
    m.pde slot = start.pde slot := by
  rw [Machine.pde, Machine.pde, hholding.live_eq _ hholding.shared.current,
    hholding.cr3]

theorem Holding.isTable_iff (hholding : Holding live start held m)
    (frame : BitVec 20) : IsTable m frame ↔ IsTable start frame := by
  simp only [IsTable, hholding.pde]

/-- A store through a held window. -/
theorem Holding.store (hholding : Holding live start held m)
    {window : ℕ × BitVec 32} (hheld : window ∈ held) {index : ℕ}
    (hindex : index < 1024) (word : BitVec 32) :
    m.store (wordAt (pageAt window.1) index) word =
        some (m.setWord (frameOf window.2) (BitVec.ofNat 10 index) word) ∧
      Holding live start held
        (m.setWord (frameOf window.2) (BitVec.ofNat 10 index) word) := by
  obtain ⟨hnotLive, hnotTable⟩ := hholding.apart window hheld
  have hsame : SamePages m
      (m.setWord (frameOf window.2) (BitVec.ofNat 10 index) word) := by
    apply samePages_setWord
    · intro heq
      exact absurd (heq ▸ hholding.shared.current) hnotLive
    · rw [hholding.isTable_iff]
      exact hnotTable
  refine ⟨store_page hholding.shared.addressable (hholding.page window hheld).1
    (hholding.entry window hheld) (hholding.present window hheld) hindex word, ?_⟩
  constructor
  · exact hholding.shared.setWord (fun hlive => absurd hlive hnotLive) word
  · exact hholding.cr3
  · intro directory hdirectory
    have hne : directory ≠ frameOf window.2 := by
      rintro rfl
      exact hnotLive hdirectory
    rw [← hholding.live_eq directory hdirectory]
    exact Function.update_of_ne hne _ _
  · intro page hpage
    rw [hsame.free_iff hpage, hholding.free page hpage]
  · exact hholding.page
  · intro other hother
    rw [hsame.entry _ (hholding.page other hother).1, hholding.entry other hother]
  · exact hholding.present
  · exact hholding.apart
  · exact hholding.used

/-- A frame is taken. -/
theorem Holding.takeFrame (hholding : Holding live start held m) :
    Holding live start held (m.setFrames (pmAlloc m.frames).1) where
  shared := hholding.shared.takeFrame
  cr3 := hholding.cr3
  live_eq := hholding.live_eq
  free := hholding.free
  page := hholding.page
  entry := hholding.entry
  present := hholding.present
  apart := hholding.apart
  used window hheld := used_pmAlloc m.frames (hholding.used window hheld)

/-- The page that a search for one page finds while windows are held. -/
theorem Holding.firstFit (hholding : Holding live start held m) {page : ℕ}
    (hfit : FirstFit (fun other => Free start other ∧
      ∀ window ∈ held, window.1 ≠ other) 1 page) :
    FirstFit (Free m) 1 page :=
  hfit.congr hholding.free

/-- A further window, onto a frame that was just taken. -/
theorem Holding.push (hholding : Holding live start held m) {page : ℕ}
    (hfit : FirstFit (fun other => Free start other ∧
      ∀ window ∈ held, window.1 ≠ other) 1 page)
    (htabled : Tabled start page) {paddr : BitVec 32}
    (hapart : frameOf paddr ∉ live ∧ ¬ IsTable start (frameOf paddr))
    (hused : m.frames.used (frameOf paddr).toNat = true) :
    ∃ next, Kmalloc.kmallocPagePaddr m paddr 1 = some (next, pageAt page) ∧
      Holding live start ((page, paddr ||| linkFlags 0 1) :: held) next ∧
      next.frames = m.frames := by
  have haddr := hholding.shared.addressable
  have hpage := hfit.kernelPage
  have hfree : Free start page ∧ ∀ window ∈ held, window.1 ≠ page := hfit.free
  have htabled' : Tabled m page := by
    rw [Tabled, hholding.pde]
    exact htabled
  have htable : IsTable m (frameOf (m.pde (slotOf page))) :=
    ⟨slotOf page, hpage.slotOf_mem, htabled', rfl⟩
  refine ⟨_, kmallocPagePaddr_one haddr (hholding.firstFit hfit) htabled' paddr, ?_,
    rfl⟩
  constructor
  · exact hholding.shared.window hpage htabled' _
  · exact hholding.cr3
  · intro directory hdirectory
    rw [← hholding.live_eq directory hdirectory]
    apply window_mem
    rintro rfl
    exact hholding.shared.apart _ hdirectory htable
  · intro other hother
    rw [window_free_iff haddr hpage htabled' (present_linkFlags paddr 0 1) hother,
      hholding.free other hother, List.forall_mem_cons]
    constructor
    · rintro ⟨⟨hold, hothers⟩, hne⟩
      exact ⟨hold, hne.symm, hothers⟩
    · rintro ⟨hold, hne, hothers⟩
      exact ⟨⟨hold, hothers⟩, Ne.symm hne⟩
  · intro window hheld
    rcases List.mem_cons.mp hheld with rfl | hold
    · exact ⟨hpage, hfree.1⟩
    · exact hholding.page window hold
  · intro window hheld
    rcases List.mem_cons.mp hheld with rfl | hold
    · rw [window_entry haddr hpage htabled' _ hpage, if_pos rfl]
    · rw [window_entry haddr hpage htabled' _ (hholding.page window hold).1,
        if_neg (hfree.2 window hold), hholding.entry window hold]
  · intro window hheld
    rcases List.mem_cons.mp hheld with rfl | hold
    · exact present_linkFlags paddr 0 1
    · exact hholding.present window hold
  · intro window hheld
    rcases List.mem_cons.mp hheld with rfl | hold
    · rw [frameOf_linked]
      exact hapart
    · exact hholding.apart window hold
  · intro window hheld
    rcases List.mem_cons.mp hheld with rfl | hold
    · rw [frameOf_linked]
      exact hused
    · exact hholding.used window hold

/-- The last window is unmapped. -/
theorem Holding.pop {page : ℕ} {word : BitVec 32}
    (hholding : Holding live start ((page, word) :: held) m)
    (hfresh : ∀ window ∈ held, window.1 ≠ page) :
    ∃ next, unmap m (pageAt page) = some next ∧ Holding live start held next := by
  have haddr := hholding.shared.addressable
  have hself : (page, word) ∈ (page, word) :: held := List.mem_cons_self
  have hpage : KernelPage page := (hholding.page (page, word) hself).1
  have hfree : Free start page := (hholding.page (page, word) hself).2
  have hentry : pageEntry m page = word := hholding.entry (page, word) hself
  have hpresent : Paging.present word = true := hholding.present (page, word) hself
  have hzero : (0 : BitVec 32) &&& 0xfff = 0 := by decide
  have htabled : Tabled m page := tabled_of_present hentry hpresent
  have htable : IsTable m (frameOf (m.pde (slotOf page))) :=
    ⟨slotOf page, hpage.slotOf_mem, htabled, rfl⟩
  refine ⟨_, unmap_page haddr hpage htabled, ?_⟩
  constructor
  · exact hholding.shared.window hpage htabled 0
  · exact hholding.cr3
  · intro directory hdirectory
    rw [← hholding.live_eq directory hdirectory]
    apply window_mem
    rintro rfl
    exact hholding.shared.apart _ hdirectory htable
  · intro other hother
    rw [Free, window_entry haddr hpage htabled 0 hother]
    by_cases hsame : other = page
    · subst hsame
      rw [if_pos rfl]
      exact iff_of_true hzero ⟨hfree, hfresh⟩
    · rw [if_neg hsame]
      have hold := hholding.free other hother
      rw [Free, List.forall_mem_cons] at hold
      rw [hold]
      exact ⟨fun h => ⟨h.1, h.2.2⟩, fun h => ⟨h.1, Ne.symm hsame, h.2⟩⟩
  · intro window hheld
    exact hholding.page window (List.mem_cons_of_mem _ hheld)
  · intro window hheld
    have hmem := List.mem_cons_of_mem (page, word) hheld
    rw [window_entry haddr hpage htabled 0 (hholding.page window hmem).1,
      if_neg (hfresh window hheld), hholding.entry window hmem]
  · intro window hheld
    exact hholding.present window (List.mem_cons_of_mem _ hheld)
  · intro window hheld
    exact hholding.apart window (List.mem_cons_of_mem _ hheld)
  · intro window hheld
    exact hholding.used window (List.mem_cons_of_mem _ hheld)

/-- A frame that `pm_alloc` returns while windows are held. -/
theorem Holding.fresh (hholding : Holding live start held m)
    (hserved : (pmAlloc m.frames).2 ≠ 0) :
    m.nextFrame ∉ live ∧ ¬ IsTable start m.nextFrame := by
  rw [← hholding.isTable_iff]
  exact hholding.shared.fresh hserved

theorem Holding.clearWords (hholding : Holding live start held m)
    {window : ℕ × BitVec 32} (hheld : window ∈ held) {count : ℕ}
    (hcount : count ≤ 1024) :
    ∃ next, Fork.clearWords m (pageAt window.1) count = some next ∧
      Holding live start held next := by
  induction count with
  | zero => exact ⟨m, rfl, hholding⟩
  | succ count ih =>
      obtain ⟨mid, hmid, hmidHolding⟩ := ih (by omega)
      obtain ⟨hstore, hnext⟩ :=
        hmidHolding.store hheld (show count < 1024 by omega) 0
      refine ⟨_, ?_, hnext⟩
      simp only [Fork.clearWords, hmid, Option.bind_eq_bind, Option.bind_some, hstore]

theorem Holding.copyWords (hholding : Holding live start held m)
    {window : ℕ × BitVec 32} (hheld : window ∈ held) {src : BitVec 32} {count : ℕ}
    (hcount : count ≤ 1024) {next : Machine}
    (hcopy : Fork.copyWords m src (pageAt window.1) count = some next) :
    Holding live start held next := by
  induction count generalizing next with
  | zero =>
      obtain rfl := Option.some.inj hcopy
      exact hholding
  | succ count ih =>
      simp only [Fork.copyWords, Option.bind_eq_bind, Option.bind_eq_some_iff] at hcopy
      obtain ⟨mid, hmid, word, -, hstore⟩ := hcopy
      obtain ⟨hstored, hnext⟩ :=
        (ih (by omega) hmid).store hheld (show count < 1024 by omega) word
      rw [hstored] at hstore
      obtain rfl := Option.some.inj hstore
      exact hnext

theorem Holding.load (hholding : Holding live start held m)
    {window : ℕ × BitVec 32} (hheld : window ∈ held) {index : ℕ}
    (hindex : index < 1024) :
    m.load (wordAt (pageAt window.1) index) =
      some (m.mem (frameOf window.2) (BitVec.ofNat 10 index)) :=
  load_page hholding.shared.addressable (hholding.page window hheld).1
    (hholding.entry window hheld) (hholding.present window hheld) hindex

/-- A fresh frame is named in a word behind a window, and read back.  Without
one the kernel panics. -/
theorem Holding.nameFrame (hholding : Holding live start held m)
    {window : ℕ × BitVec 32} (hheld : window ∈ held) {index : ℕ}
    (hindex : index < 1024) {flags : BitVec 32} (hflags : flags < 0x1000) :
    ∃ named, (m.setFrames (pmAlloc m.frames).1).store
          (wordAt (pageAt window.1) index)
          (BitVec.ofNat 32 (pmAlloc m.frames).2 ||| flags) = some named ∧
      named.load (wordAt (pageAt window.1) index) =
        some (BitVec.ofNat 32 (pmAlloc m.frames).2 ||| flags) ∧
      Holding live start held named ∧
      (¬ BitVec.ofNat 32 (pmAlloc m.frames).2 ||| flags < 4096 →
        (frameOf (BitVec.ofNat 32 (pmAlloc m.frames).2 ||| flags) ∉ live ∧
          ¬ IsTable start
            (frameOf (BitVec.ofNat 32 (pmAlloc m.frames).2 ||| flags))) ∧
        named.frames.used
          (frameOf (BitVec.ofNat 32 (pmAlloc m.frames).2 ||| flags)).toNat =
            true) := by
  obtain ⟨hstore, hnamed⟩ := hholding.takeFrame.store hheld hindex
    (BitVec.ofNat 32 (pmAlloc m.frames).2 ||| flags)
  refine ⟨_, hstore, ?_, hnamed, ?_⟩
  · rw [hnamed.load hheld hindex, setWord_mem, if_pos ⟨rfl, rfl⟩]
  · intro hlarge
    have hserved : (pmAlloc m.frames).2 ≠ 0 := by
      intro hzero
      apply hlarge
      rw [hzero]
      simpa using hflags
    rw [frameOf_or_flags _ hflags]
    exact ⟨hholding.fresh hserved, (pmAlloc_fresh hserved).2⟩

theorem and_flagMask_lt (word : BitVec 32) : word &&& 0xfff < 0x1000 := by
  have hle : (word &&& 0xfff).toNat ≤ 0xfff := by
    rw [BitVec.toNat_and]
    exact Nat.and_le_right
  exact Nat.lt_succ_of_le hle

/-! ## The copies -/

/-- The pages that are free while windows are held. -/
def Untaken (start : Machine) (held : List (ℕ × BitVec 32)) (page : ℕ) : Prop :=
  Free start page ∧ ∀ window ∈ held, window.1 ≠ page

/-- A search for one page finds one whose table is there. -/
def HasWindow (start : Machine) (held : List (ℕ × BitVec 32)) : Prop :=
  ∃ page, FirstFit (Untaken start held) 1 page ∧ Tabled start page

theorem Holding.copyPage (hholding : Holding live start held m)
    (hroom : HasWindow start held) {window : ℕ × BitVec 32}
    (hheld : window ∈ held) {i j : ℕ} (hj : j < 1024) {flags : BitVec 32}
    (hflags : flags < 0x1000) {next : Machine}
    (hcopy : Fork.copyPage m (pageAt window.1) i j flags = some next) :
    Holding live start held next := by
  obtain ⟨page, hfit, htabled⟩ := hroom
  obtain ⟨named, hstore, hload, hnamed, hframe⟩ :=
    hholding.nameFrame hheld hj hflags
  simp only [Fork.copyPage, hstore, hload, Option.bind_eq_bind, Option.bind_some]
    at hcopy
  split at hcopy
  · cases hcopy
  · rename_i hlarge
    have hmask : ~~~(0xfff : BitVec 32) = 0xfffff000 := by decide
    obtain ⟨hapart, hused⟩ := hframe hlarge
    rw [← frameOf_address, ← hmask] at hapart hused
    obtain ⟨mapped, hmapped, hpushed, -⟩ := hnamed.push hfit htabled hapart hused
    rw [hmapped, Option.bind_some] at hcopy
    obtain ⟨copied, hcopied, hunmap⟩ := Option.bind_eq_some_iff.mp hcopy
    have hwindow := hpushed.copyWords List.mem_cons_self le_rfl hcopied
    obtain ⟨popped, hpop, hresult⟩ := hwindow.pop hfit.free.2
    rw [hpop] at hunmap
    obtain rfl := Option.some.inj hunmap
    exact hresult

theorem Holding.copyEntry (hholding : Holding live start held m)
    (hroom : HasWindow start held) {window : ℕ × BitVec 32}
    (hheld : window ∈ held) {i j : ℕ} (hj : j < 1024) {next : Machine}
    (hcopy : Fork.copyEntry m (pageAt window.1) i j = some next) :
    Holding live start held next := by
  obtain ⟨hstore, hcleared⟩ := hholding.store hheld hj 0
  simp only [Fork.copyEntry, Option.bind_eq_bind, Option.bind_eq_some_iff] at hcopy
  obtain ⟨old, -, cleared, hclear, old', -, hbranch⟩ := hcopy
  rw [hstore] at hclear
  obtain rfl := Option.some.inj hclear
  split at hbranch
  · exact hcleared.copyPage hroom hheld hj (and_flagMask_lt old) hbranch
  · obtain rfl := Option.some.inj hbranch
    exact hcleared

theorem Holding.copyEntries (hholding : Holding live start held m)
    (hroom : HasWindow start held) {window : ℕ × BitVec 32}
    (hheld : window ∈ held) {i count : ℕ} (hcount : count ≤ 1024) {next : Machine}
    (hcopy : Fork.copyEntries m (pageAt window.1) i count = some next) :
    Holding live start held next := by
  induction count generalizing next with
  | zero =>
      obtain rfl := Option.some.inj hcopy
      exact hholding
  | succ count ih =>
      simp only [Fork.copyEntries, Option.bind_eq_bind, Option.bind_eq_some_iff]
        at hcopy
      obtain ⟨mid, hmid, hround⟩ := hcopy
      exact (ih (by omega) hmid).copyEntry hroom hheld (by omega) hround

/-- Two windows, one inside the other: a table and a page. -/
def HasWindows (start : Machine) (held : List (ℕ × BitVec 32)) : Prop :=
  ∃ page, FirstFit (Untaken start held) 1 page ∧ Tabled start page ∧
    ∀ word, HasWindow start ((page, word) :: held)

theorem Holding.copySlot (hholding : Holding live start held m)
    (hroom : HasWindows start held) {window : ℕ × BitVec 32}
    (hheld : window ∈ held) {i : ℕ} (hi : i < 1024) {next : Machine}
    (hcopy : Fork.copySlot m (pageAt window.1) i = some next) :
    Holding live start held next := by
  obtain ⟨page, hfit, htabled, hinner⟩ := hroom
  have hload := load_pdAddress hholding.shared.addressable.recursive
    (BitVec.ofNat 10 i)
  simp only [Fork.copySlot, hload, Option.bind_eq_bind, Option.bind_some] at hcopy
  split at hcopy
  · obtain rfl := Option.some.inj hcopy
    exact hholding
  · obtain ⟨named, hstore, hread, hnamed, hframe⟩ := hholding.nameFrame hheld hi
      (and_flagMask_lt (m.pde (BitVec.ofNat 10 i)))
    simp only [hstore, hread, Option.bind_some] at hcopy
    split at hcopy
    · cases hcopy
    · rename_i hlarge
      obtain ⟨hapart, hused⟩ := hframe hlarge
      obtain ⟨mapped, hmapped, hpushed, -⟩ := hnamed.push hfit htabled hapart hused
      rw [hmapped, Option.bind_some] at hcopy
      obtain ⟨copied, hcopied, hunmap⟩ := Option.bind_eq_some_iff.mp hcopy
      have hwindow :=
        hpushed.copyEntries (hinner _) List.mem_cons_self le_rfl hcopied
      obtain ⟨popped, hpop, hresult⟩ := hwindow.pop hfit.free.2
      rw [hpop] at hunmap
      obtain rfl := Option.some.inj hunmap
      exact hresult

theorem Holding.copySlots (hholding : Holding live start held m)
    (hroom : HasWindows start held) {window : ℕ × BitVec 32}
    (hheld : window ∈ held) {count : ℕ} (hcount : count < 1023) {next : Machine}
    (hcopy : Fork.copySlots m (pageAt window.1) count = some next) :
    Holding live start held next := by
  induction count generalizing next with
  | zero =>
      obtain rfl := Option.some.inj hcopy
      exact hholding
  | succ count ih =>
      simp only [Fork.copySlots, Option.bind_eq_bind, Option.bind_eq_some_iff]
        at hcopy
      obtain ⟨mid, hmid, hround⟩ := hcopy
      exact (ih (by omega) hmid).copySlot hroom hheld (by omega) hround

/-- The directory behind a window has the kernel half of the current one. -/
def HasHalf (start m : Machine) (frame : BitVec 20) : Prop :=
  ∀ slot ∈ kernelSlots, m.mem frame slot = start.pde slot

theorem Holding.copyKernel (hholding : Holding live start held m)
    {window : ℕ × BitVec 32} (hheld : window ∈ held) {count : ℕ}
    (hcount : count ≤ 256) :
    ∃ next, Fork.copyKernel m (pageAt window.1) count = some next ∧
      Holding live start held next ∧
      ∀ k < count, next.mem (frameOf window.2) (BitVec.ofNat 10 (768 + k)) =
        start.pde (BitVec.ofNat 10 (768 + k)) := by
  induction count with
  | zero => exact ⟨m, rfl, hholding, by simp⟩
  | succ count ih =>
      obtain ⟨mid, hmid, hmidHolding, hwords⟩ := ih (by omega)
      have hload := load_pdAddress hmidHolding.shared.addressable.recursive
        (BitVec.ofNat 10 (768 + count))
      obtain ⟨hstore, hnext⟩ := hmidHolding.store hheld
        (show 768 + count < 1024 by omega) (mid.pde (BitVec.ofNat 10 (768 + count)))
      refine ⟨_, ?_, hnext, ?_⟩
      · simp only [Fork.copyKernel, hmid, hload, hstore, Option.bind_eq_bind,
          Option.bind_some]
      · intro k hk
        rw [setWord_mem]
        split
        · rename_i hsame
          rw [hsame.2, hmidHolding.pde]
        · rename_i hother
          apply hwords
          rcases Nat.lt_succ_iff_lt_or_eq.mp hk with hlt | rfl
          · exact hlt
          · exact absurd ⟨rfl, rfl⟩ hother

/-- All 256 slots, the recursive one included. -/
theorem Holding.copyKernel_all (hholding : Holding live start held m)
    {window : ℕ × BitVec 32} (hheld : window ∈ held) :
    ∃ next, Fork.copyKernel m (pageAt window.1) 256 = some next ∧
      Holding live start held next ∧ HasHalf start next (frameOf window.2) := by
  obtain ⟨next, hcopy, hnext, hwords⟩ := hholding.copyKernel hheld (le_refl 256)
  refine ⟨next, hcopy, hnext, ?_⟩
  intro slot hslot
  obtain ⟨hlow, hhigh⟩ := hslot
  have hsame : BitVec.ofNat 10 (768 + (slot.toNat - 768)) = slot := by
    rw [Nat.add_sub_cancel' hlow, BitVec.ofNat_toNat, BitVec.setWidth_eq]
  have hword := hwords (slot.toNat - 768) (by omega)
  rwa [hsame] at hword

theorem Holding.closeDirectory (hholding : Holding live start held m)
    {window : ℕ × BitVec 32} (hheld : window ∈ held)
    (hhalf : HasHalf start m (frameOf window.2)) :
    ∃ next, Fork.closeDirectory m (pageAt window.1) = some next ∧
      Holding live start held next ∧ HasHalf start next (frameOf window.2) ∧
      next.mem (frameOf window.2) 1023 = window.2 &&& 0xfffff000 ||| ptPresent := by
  have hload := load_pdAddress hholding.shared.addressable.recursive 0
  obtain ⟨hfirst, hcopied⟩ := hholding.store hheld (show 0 < 1024 by decide) (m.pde 0)
  have hpaddr := getPaddr_page hcopied.shared.addressable (hcopied.page window hheld).1
  rw [hcopied.entry window hheld] at hpaddr
  obtain ⟨hlast, hclosed⟩ := hcopied.store hheld (show 1023 < 1024 by decide)
    (window.2 &&& 0xfffff000 ||| ptPresent)
  refine ⟨_, ?_, hclosed, ?_, ?_⟩
  · simp only [Fork.closeDirectory, hload, hfirst, hpaddr, hlast, Option.bind_eq_bind,
      Option.bind_some]
  · intro slot hslot
    obtain ⟨hlow, hhigh⟩ := id hslot
    have hne : ∀ index, index < 768 ∨ index = 1023 →
        ¬ (frameOf window.2 = frameOf window.2 ∧ slot = BitVec.ofNat 10 index) := by
      rintro index hindex ⟨-, rfl⟩
      rw [BitVec.toNat_ofNat] at hlow hhigh
      omega
    rw [setWord_mem, if_neg (hne 1023 (.inr rfl)), setWord_mem,
      if_neg (hne 0 (.inl (by decide)))]
    exact hhalf slot hslot
  · rw [setWord_mem, if_pos ⟨rfl, rfl⟩]

/-- `mapdup_full`: the directory behind the window shares the kernel half and
names itself. -/
theorem Holding.mapdupFull (hholding : Holding live start held m)
    (hroom : HasWindows start held) {window : ℕ × BitVec 32} (hheld : window ∈ held)
    {next : Machine} (hcopy : Fork.mapdupFull m (pageAt window.1) = some next) :
    Holding live start held next ∧ HasHalf start next (frameOf window.2) ∧
      next.mem (frameOf window.2) 1023 = window.2 &&& 0xfffff000 ||| ptPresent := by
  obtain ⟨cleared, hclear, hcleared⟩ := hholding.clearWords hheld (le_refl 1024)
  simp only [Fork.mapdupFull, hclear, Option.bind_eq_bind, Option.bind_some] at hcopy
  obtain ⟨users, husers, hrest⟩ := Option.bind_eq_some_iff.mp hcopy
  have hcopied := hcleared.copySlots hroom hheld (by decide) husers
  obtain ⟨kernel, hkernel, hholds, hhalf⟩ := hcopied.copyKernel_all hheld
  obtain ⟨closed, hclose, hresult⟩ := hholds.closeDirectory hheld hhalf
  rw [hkernel, Option.bind_some, hclose] at hrest
  obtain rfl := Option.some.inj hrest
  exact hresult

end KimisOS.Fork
