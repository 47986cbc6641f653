import KimisOS.Memory.SearchRange

/-!
# A failing `exec`

`exec` maps the directory of the process before it looks whether the file
exists, and tears the address space down before `load_elf` looks at its header.
For a missing file it returns `-1` with the window still mapped; a header that
`load_elf` rejects gives entry 0, to which `exec` jumps.
-/

namespace KimisOS.Exec

open KimisOS.Run
open KimisOS.Paging
open KimisOS.Frames
open KimisOS.Kmalloc
open KimisOS.Fork
open KimisOS.Kill
open KimisOS.Exhaustion
open KimisOS.SearchRange

/-! ## Files -/

/-- A file, by the read operation among its `fileops`: buffer, offset and count. -/
structure Vfile where
  read : Option (Kernel → BitVec 32 → ℕ → ℕ → Option Kernel)

def fread (kernel : Kernel) (fileEntry : Vfile) (byteArray : BitVec 32)
    (offset count : ℕ) : Option Kernel :=
  match fileEntry.read with
  | none => some kernel
  | some read =>
      if byteArray = 0 ∨ count = 0 then some kernel
      else read kernel byteArray offset count

/-! ## `load_elf` -/

/-- The fields of `elf_header_t` that `load_elf` reads. -/
structure ElfHeader where
  magic : BitVec 32
  bits : BitVec 8
  endianness : BitVec 8
  type : BitVec 16
  entryOffset : BitVec 32
  programHeaderOffset : BitVec 32
  programEntrySize : BitVec 16
  programEntryCount : BitVec 16

/-- `sizeof(elf_header_t)`. -/
def elfHeaderSize : ℕ := 52

def elfTypeCore : BitVec 16 := 4
def elfBits32 : BitVec 8 := 1

/-- The three tests of `load_elf`. -/
def ElfHeader.Rejected (header : ElfHeader) : Prop :=
  (header.magic ≠ 0x464c457f ∨ header.type = elfTypeCore) ∨
    header.endianness = 2 ∨ header.bits ≠ elfBits32

instance (header : ElfHeader) : Decidable header.Rejected :=
  inferInstanceAs (Decidable (_ ∨ _))

/-- The fields at their offsets in the packed structure. -/
def loadHeader (m : Machine) (fileData : BitVec 32) : Option ElfHeader := do
  let magic ← m.load (wordAt fileData 0)
  let ident ← m.load (wordAt fileData 1)
  let type ← m.load (wordAt fileData 4)
  let entryOffset ← m.load (wordAt fileData 6)
  let programHeaderOffset ← m.load (wordAt fileData 7)
  let sizes ← m.load (wordAt fileData 10)
  let counts ← m.load (wordAt fileData 11)
  some
    { magic := magic
      bits := ident.extractLsb' 0 8
      endianness := ident.extractLsb' 8 8
      type := type.extractLsb' 0 16
      entryOffset := entryOffset
      programHeaderOffset := programHeaderOffset
      programEntrySize := sizes.extractLsb' 16 16
      programEntryCount := counts.extractLsb' 0 16 }

/-- The fields of `program_entry_t` that `load_segment_static` reads. -/
structure ProgramEntry where
  type : BitVec 32
  dataOffset : BitVec 32
  vaddr : BitVec 32
  fsize : BitVec 32
  msize : BitVec 32
  flags : BitVec 32

/-- `program_header[i]`, of eight words each. -/
def loadEntry (m : Machine) (programHeader : BitVec 32) (i : ℕ) :
    Option ProgramEntry := do
  let type ← m.load (wordAt programHeader (8 * i))
  let dataOffset ← m.load (wordAt programHeader (8 * i + 1))
  let vaddr ← m.load (wordAt programHeader (8 * i + 2))
  let fsize ← m.load (wordAt programHeader (8 * i + 4))
  let msize ← m.load (wordAt programHeader (8 * i + 5))
  let flags ← m.load (wordAt programHeader (8 * i + 6))
  some ⟨type, dataOffset, vaddr, fsize, msize, flags⟩

/-- A byte of a word is cleared. -/
def clearByte (m : Machine) (vaddr : BitVec 32) : Option Machine := do
  let word ← m.load vaddr
  m.store vaddr (word &&& ~~~(0xff#32 <<< (8 * (vaddr.extractLsb' 0 2).toNat)))

/-- `memclr` behind a pointer that need not be aligned. -/
def clearBytes (m : Machine) (ptr : BitVec 32) : ℕ → Option Machine
  | 0 => some m
  | i + 1 => do
      let cleared ← clearBytes m ptr i
      clearByte cleared (ptr + BitVec.ofNat 32 i)

/-- `map(vaddr, (void*)pm_alloc(), flags)`. -/
def mapNew (m : Machine) (vaddr flags : BitVec 32) : Option Machine :=
  let (frames, address) := pmAlloc m.frames
  map (m.setFrames frames) vaddr (BitVec.ofNat 32 address) flags

/-- The loop over the pages of a segment. -/
def mapSegment (m : Machine) (baseVaddr flags : BitVec 32) : ℕ → Option Machine
  | 0 => some m
  | i + 1 => do
      let loaded ← mapSegment m baseVaddr flags i
      let mapped ← mapNew loaded (baseVaddr + BitVec.ofNat 32 (i * 4096)) flags
      clearBytes mapped (baseVaddr + BitVec.ofNat 32 (i * 4096)) 4096

def loadSegmentStatic (kernel : Kernel) (file : Vfile) (entry : ProgramEntry) :
    Option Kernel :=
  if entry.type ≠ 1 then some kernel
  else do
    let sizePages := (entry.msize + 4096 - 1) / 4096
    let flags := ptPresent ||| ptUser ||| if entry.flags &&& 2 ≠ 0 then ptUserRw else 0
    let machine ← mapSegment kernel.machine entry.vaddr flags sizePages.toNat
    fread { kernel with machine := machine } file entry.vaddr entry.dataOffset.toNat
      entry.fsize.toNat

/-- The loop over the entries. -/
def loadSegments (kernel : Kernel) (file : Vfile) (programHeader : BitVec 32) :
    ℕ → Option Kernel
  | 0 => some kernel
  | i + 1 => do
      let loaded ← loadSegments kernel file programHeader i
      let entry ← loadEntry loaded.machine programHeader i
      loadSegmentStatic loaded file entry

/-- The buffer of `load_elf` and the header in it. -/
def readHeader (kernel : Kernel) (file : Vfile) :
    Option (Kernel × BitVec 32 × ElfHeader) := do
  let (allocated, fileData) ← kmalloc kernel 1
  let filled ← fread allocated file fileData 0 elfHeaderSize
  let header ← loadHeader filled.machine fileData
  some (filled, fileData, header)

/-- `load_elf`: the entry point, 0 for a header that is rejected.  The word at the
entry point is read for a message. -/
def loadElf (kernel : Kernel) (file : Vfile) : Option (Kernel × BitVec 32) := do
  let (filled, fileData, header) ← readHeader kernel file
  if header.Rejected then
    let freed ← kfree filled fileData
    some (freed, 0)
  else
    let size : BitVec 32 :=
      header.programEntryCount.setWidth 32 * header.programEntrySize.setWidth 32
    let (allocated, programHeader) ← kmalloc filled ⟨(size + 4096 - 1) / 4096⟩
    let named ← fread allocated file programHeader header.programHeaderOffset.toNat
      size.toNat
    let loaded ← loadSegments named file programHeader header.programEntryCount.toNat
    let _ ← loaded.machine.load header.entryOffset
    some (loaded, header.entryOffset)

/-! ## `exec` -/

/-- One round of the loop over the slots. -/
def clearSlot (kernel : Kernel) (pdPtr : BitVec 32) (i : ℕ) : Option Kernel := do
  let entry ← kernel.machine.load (wordAt pdPtr i)
  let (mapped, ptPtr) ← kmallocPagePaddr kernel.machine entry 1
  let cleared ← clearWords mapped ptPtr 1024
  let freed ← kfree { kernel with machine := cleared } ptPtr
  let machine ← freed.machine.store (wordAt pdPtr i) 0
  some { freed with machine := machine }

/-- The first rounds of the loop, which starts at slot 1. -/
def clearSlots (kernel : Kernel) (pdPtr : BitVec 32) : ℕ → Option Kernel
  | 0 => some kernel
  | count + 1 => do
      let cleared ← clearSlots kernel pdPtr count
      clearSlot cleared pdPtr (count + 1)

/-- The loops that map a stack, downwards. -/
def mapStack (m : Machine) (stack flags : BitVec 32) : ℕ → Option Machine
  | 0 => some m
  | i + 1 => do
      let mapped ← mapStack m stack flags i
      mapNew mapped (stack - BitVec.ofNat 32 (i * 4096)) flags

/-- How `exec` ends. -/
inductive Outcome where
  | returned (status : BitVec 32) (kernel : Kernel)
  | jumped (esp eip esp0 : BitVec 32) (kernel : Kernel)

/-- The old address space is taken down, through the window of its directory. -/
def tearDown (kernel : Kernel) (pdPtr : BitVec 32) : Option Kernel := do
  let cleared ← clearSlots kernel pdPtr 767
  kfree cleared pdPtr

/-- What `exec` does with the new image. -/
def enterImage (kernel : Kernel) (program : Vfile) : Option Outcome := do
  let (loaded, entry) ← loadElf kernel program
  let stack := entry - 0x10000
  let esp0 : BitVec 32 := 0xc0000000 - 0x10000
  let user ← mapStack loaded.machine stack (ptUserRw ||| ptUser ||| ptPresent) 32
  let machine ← mapStack user esp0 ptPresent 8
  some (.jumped (stack - 4) entry esp0 { loaded with machine := machine })

def exec (fopen : CString → Option Vfile) (system : System) (filename : CString) :
    Option Outcome := do
  let program := fopen filename
  let pd := system.pageDir system.sched.currentPid
  let (mapped, pdPtr) ← kmallocPagePaddr system.kernel.machine pd 1
  let kernel := { system.kernel with machine := mapped }
  match program with
  | none => some (.returned (-1) kernel)
  | some program => do
      let kernel ← tearDown kernel pdPtr
      enterImage kernel program

/-! ## What callers rely on -/

/-- The user pages and all frames beside the kernel tables are as before, and no
page that was unmapped is mapped. -/
structure AsBefore (m next : Machine) : Prop where
  translations : ∀ page < 0xc0000, pageEntry next page = pageEntry m page
  frames : ∀ frame, frame ≠ m.directory → ¬ IsTable m frame → ¬ IsTable next frame →
    next.mem frame = m.mem frame
  windows : ∀ page, Free m page → Free next page

/-- `exec` has returned `-1`, with memory as it was. -/
def Harmless (system : System) (outcome : Option Outcome) : Prop :=
  ∃ kernel, outcome = some (.returned (-1) kernel) ∧
    AsBefore system.kernel.machine kernel.machine

/-- `load_elf` would reject the file. -/
def Rejects (kernel : Kernel) (file : Vfile) : Prop :=
  ∃ filled fileData header, readHeader kernel file = some (filled, fileData, header) ∧
    header.Rejected

/-- The file does not exist, or is rejected where `exec` comes to `load_elf`. -/
def Fails (system : System) : Option Vfile → Prop
  | none => True
  | some program => ∀ mapped pdPtr kernel,
      kmallocPagePaddr system.kernel.machine
        (system.pageDir system.sched.currentPid) 1 = some (mapped, pdPtr) →
      tearDown { system.kernel with machine := mapped } pdPtr = some kernel →
      Rejects kernel program

/-! ## A rejected file -/

variable {fopen : CString → Option Vfile} {system : System} {filename : CString}

theorem loadElf_rejected {kernel : Kernel} {file : Vfile} (hrejects : Rejects kernel file)
    {loaded : Kernel} {entry : BitVec 32} (hload : loadElf kernel file = some (loaded, entry)) :
    entry = 0 := by
  obtain ⟨filled, fileData, header, hread, hrejected⟩ := hrejects
  simp only [loadElf, hread, Option.bind_eq_bind, Option.bind_some, if_pos hrejected,
    Option.bind_eq_some_iff, Option.some.injEq, Prod.mk.injEq] at hload
  obtain ⟨freed, -, -, hentry⟩ := hload
  exact hentry.symm

/-- `exec` never returns for a file that is rejected: it jumps to address 0. -/
theorem exec_rejected {program : Vfile} (hopen : fopen filename = some program)
    (hfails : Fails system (fopen filename)) {outcome : Outcome}
    (hexec : exec fopen system filename = some outcome) :
    ∃ kernel, outcome = .jumped (0 - 0x10000 - 4) 0 (0xc0000000 - 0x10000) kernel := by
  rw [hopen] at hfails
  simp only [exec, hopen, Option.bind_eq_bind, Option.bind_eq_some_iff] at hexec
  obtain ⟨⟨mapped, pdPtr⟩, hmap, kernel, hdown, henter⟩ := hexec
  have hrejects := hfails mapped pdPtr kernel hmap hdown
  simp only [enterImage, Option.bind_eq_bind, Option.bind_eq_some_iff,
    Option.some.injEq] at henter
  obtain ⟨⟨loaded, entry⟩, hload, user, -, machine, -, rfl⟩ := henter
  obtain rfl := loadElf_rejected hrejects hload
  exact ⟨_, rfl⟩

/-! ## A missing file -/

variable {m next : Machine} {page : ℕ}

/-- A free page is not the one that shows the directory itself. -/
theorem not_last_of_free (hm : Walkable m) (hfree : Free m page)
    (hslot : slotOf page = 1023) : indexOf page ≠ 1023 := by
  intro hindex
  obtain ⟨hpresent, hself⟩ := hm.recursive
  have hne := ne_zero_of_present hpresent
  have hentry : pageEntry m page = m.pde 1023 := by
    rw [pageEntry, Machine.entry, hslot, if_neg hne, hself, hindex]
    rfl
  exact not_free_of_present hentry hpresent hfree

/-- A word in the table of a page is the word of that page, also where the table is
the directory. -/
theorem pageEntry_setWord (hm : Walkable m) (hne : m.pde (slotOf page) ≠ 0)
    (hindex : slotOf page = 1023 → indexOf page ≠ 1023) (word : BitVec 32) :
    pageEntry (m.setWord (frameOf (m.pde (slotOf page))) (indexOf page) word) page =
      word := by
  have hpde : (m.setWord (frameOf (m.pde (slotOf page))) (indexOf page) word).pde
      (slotOf page) = m.pde (slotOf page) := by
    by_cases hlast : slotOf page = 1023
    · rw [Machine.pde, setWord_directory, setWord_mem, if_neg]
      · rfl
      · rintro ⟨-, heq⟩
        exact hindex hlast (heq.symm.trans hlast)
    · exact setTable_pde (hm.notDirectory _ hlast hne) _ _
  rw [pageEntry, Machine.entry, hpde, if_neg hne, setWord_mem, if_pos ⟨rfl, rfl⟩]

/-- The window of one page, wherever the search ends. -/
theorem mapWindow_one_used (hm : Walkable m) (hfree : Free m page) {paddr : BitVec 32}
    (hmap : mapWindow m page 1 paddr 1 = some next) : ¬ Free next page := by
  have hflags : linkFlags 0 1 &&& ptUser ||| linkFlags 0 1 &&& ptUserRw = 0 := by decide
  obtain ⟨tabled, htabled, hwalk, hne⟩ := hm.newTable (slotOf page)
  have hwiden : widen tabled (pageAt page) 0 = some tabled := by
    rw [widen_eq hwalk.recursive, if_neg (by simp)]
  have hstore := store_ptAddress hwalk.recursive (hwalk.present _ hne) (indexOf page)
    (paddr + BitVec.ofNat 32 0 * 4096 ||| linkFlags 0 1)
  have hslot : pdIndex (pageAt page) = slotOf page := rfl
  have hindex : ptIndex (pageAt page) = indexOf page := rfl
  simp only [mapWindow, map, Nat.add_zero, Option.bind_eq_bind, Option.bind_some, hflags,
    hslot, hindex, htabled, hwiden, hstore, Option.some.injEq] at hmap
  subst hmap
  exact not_free_of_present
    (pageEntry_setWord hwalk hne (not_last_of_free hm hfree) _) (present_linkFlags _ _ _)

theorem asBefore_refl (m : Machine) : AsBefore m m :=
  ⟨fun _ _ => rfl, fun _ _ _ _ => rfl, fun _ h => h⟩

/-- A missing file leaves the window of the directory behind, unless there was no
page for it. -/
theorem exec_missing_iff (hm : Walkable system.kernel.machine)
    (hopen : fopen filename = none) :
    Harmless system (exec fopen system filename) ↔ NoRun system.kernel.machine 1 := by
  constructor
  · rintro ⟨kernel, hexec, hkeeps⟩
    by_contra hsome
    obtain ⟨page, hrun⟩ := hm.firstRun hsome
    have hfree : Free system.kernel.machine page :=
      (hm.pagesFree_true.mp hrun.free) 0 Nat.one_pos
    simp only [exec, hopen, kmallocPagePaddr_found hrun, Option.bind_eq_bind,
      Option.bind_eq_some_iff, Option.map_eq_some_iff] at hexec
    obtain ⟨_, ⟨mapped, hmap, rfl⟩, hreturned⟩ := hexec
    obtain ⟨-, rfl⟩ := Outcome.returned.inj (Option.some.inj hreturned)
    exact mapWindow_one_used hm hfree hmap (hkeeps.windows page hfree)
  · intro hnone
    have hsearch : searchPages system.kernel.machine 1 = some none :=
      hm.findPages_none hnone _ _
    refine ⟨system.kernel, ?_, asBefore_refl _⟩
    simp only [exec, hopen, kmallocPagePaddr, hsearch, Option.bind_eq_bind,
      Option.bind_some]

/-- A failing `exec` returns `-1` with everything as it was exactly if the file does
not exist and no page of the address space is free for the window. -/
theorem exec_harmless_iff (fopen : CString → Option Vfile) (system : System)
    (filename : CString) (hm : Walkable system.kernel.machine)
    (hfails : Fails system (fopen filename)) :
    Harmless system (exec fopen system filename) ↔
      fopen filename = none ∧ NoRun system.kernel.machine 1 := by
  cases hopen : fopen filename with
  | none =>
      rw [exec_missing_iff hm hopen]
      simp
  | some program =>
      refine iff_of_false ?_ (by simp)
      rintro ⟨kernel, hexec, -⟩
      obtain ⟨other, hjumped⟩ := exec_rejected hopen hfails hexec
      cases hjumped

/-! ## Two address spaces -/

/-- A directory in frame 1, whose slots all name a full table in frame 2. -/
def fullSpace : Machine where
  mem frame index :=
    if frame = 1 then if index = 1023 then 0x1001 else 0x2001 else 0x500001
  cr3 := 0x1000
  frames := ⟨fun _ => 0xff, 0x1ffff⟩

/-- A directory in frame 1, with an empty kernel table in frame 2. -/
def emptySpace : Machine where
  mem frame index :=
    if frame = 1 then if index = 1023 then 0x1001 else if index = 768 then 0x2001 else 0
    else 0
  cr3 := 0x1000
  frames := ⟨fun _ => 0xff, 0x1ffff⟩

/-- The only process, in the current address space. -/
def caller (m : Machine) : System where
  kernel := ⟨m, ⟨fun _ => 0, 0, 0, 0⟩⟩
  sched :=
    { processes := fun _ => ⟨true, false, false, 0, 0, 0x1000, 0⟩
      processQueue := fun _ => 0
      activeProcesses := 1
      currentPid := 0
      queueLength := 1
      currentQueueIndex := 0 }

theorem fullSpace_pde (slot : BitVec 10) :
    fullSpace.pde slot = if slot = 1023 then 0x1001 else 0x2001 := rfl

theorem fullSpace_walkable : Walkable fullSpace := by
  have hdirectory : fullSpace.directory = 1 := by decide
  refine ⟨⟨by decide, by decide⟩, ?_, ?_, by decide, by decide⟩
  · intro slot _
    rw [fullSpace_pde]
    split <;> decide
  · intro slot hlast _
    rw [fullSpace_pde, if_neg hlast, hdirectory]
    decide

theorem fullSpace_noRun : NoRun fullSpace 1 := by
  intro page hrun
  have hfree := hrun 0 Nat.one_pos
  have hne : fullSpace.pde (slotOf (page + 0)) ≠ 0 := by
    rw [fullSpace_pde]
    split <;> decide
  have hword : present (pageEntry fullSpace (page + 0)) = true := by
    rw [pageEntry, Machine.entry, if_neg hne]
    simp only [fullSpace]
    split
    · split <;> decide
    · decide
  exact not_free_of_present rfl hword hfree

/-- With no page left, a missing file changes nothing. -/
theorem exec_harmless_fullSpace :
    Harmless (caller fullSpace) (exec (fun _ => none) (caller fullSpace) [0x61]) :=
  (exec_harmless_iff (fun _ => none) (caller fullSpace) [0x61] fullSpace_walkable
    trivial).mpr ⟨rfl, fullSpace_noRun⟩

theorem emptySpace_walkable : Walkable emptySpace := by
  have hdirectory : emptySpace.directory = 1 := by decide
  have hpde : ∀ slot, emptySpace.pde slot =
      if slot = 1023 then 0x1001 else if slot = 768 then 0x2001 else 0 := fun _ => rfl
  refine ⟨⟨by decide, by decide⟩, ?_, ?_, by decide, by decide⟩
  · intro slot hne
    rw [hpde] at hne ⊢
    split
    · decide
    · split
      · decide
      · simp_all
  · intro slot hlast hne
    rw [hpde, if_neg hlast] at hne ⊢
    rw [hdirectory]
    split
    · decide
    · simp_all

/-- A missing file leaves page `0xc0000` mapped. -/
theorem exec_missing_keeps_window :
    ¬ Harmless (caller emptySpace) (exec (fun _ => none) (caller emptySpace) [0x61]) := by
  rw [exec_missing_iff emptySpace_walkable rfl]
  intro hnone
  apply hnone 0xc0000
  intro j hj
  obtain rfl : j = 0 := by omega
  decide

end KimisOS.Exec
