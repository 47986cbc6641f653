import KimisOS.Memory.Frames

/-!
# Page tables behind their own recursive slot

The kernel edits the page directory at `0xfffff000` and the page table of slot
`i` at `0xffc00000 + i * 0x1000`.  Both are ordinary virtual addresses: every
access is a walk of the processor through the directory that `cr3` names, and
it is slot 1023, which names the directory itself, that makes these addresses
work.  A walk that meets an entry without its present bit faults and has no
result.
-/

namespace KimisOS.Paging

open KimisOS.Run
open KimisOS.Frames

/-! ## Words and addresses -/

/-- The frame an entry or a physical address names. -/
def frameOf (word : BitVec 32) : BitVec 20 := word.extractLsb' 12 20

/-- `PD_PRESENT` and `PT_PRESENT`. -/
def present (entry : BitVec 32) : Bool := entry.getLsbD 0

/-- `(uint32_t)vaddr >> 22`. -/
def pdIndex (vaddr : BitVec 32) : BitVec 10 := vaddr.extractLsb' 22 10

/-- `(uint32_t)vaddr >> 12 & 0x3ff`. -/
def ptIndex (vaddr : BitVec 32) : BitVec 10 := vaddr.extractLsb' 12 10

/-- The word of its page that an address points to. -/
def wordIndex (vaddr : BitVec 32) : BitVec 10 := vaddr.extractLsb' 2 10

/-- The address of `pd[index]`. -/
def pdAddress (index : BitVec 10) : BitVec 32 :=
  0xfffff000 + index.setWidth 32 * 4

/-- The address of `pt[index]` in the table of a directory slot. -/
def ptAddress (slot index : BitVec 10) : BitVec 32 :=
  0xffc00000 + slot.setWidth 32 * 0x1000 + index.setWidth 32 * 4

def ptPresent : BitVec 32 := 0x0001
def ptUserRw : BitVec 32 := 0x0002
def ptUser : BitVec 32 := 0x0004
def ptPcd : BitVec 32 := 0x0010
def ptLinkN : BitVec 32 := 0x0200
def ptLinkL : BitVec 32 := 0x0400

/-! ## The machine -/

/-- Physical memory as frames of 1024 words, the directory register and the
map of allocated frames. -/
structure Machine where
  mem : BitVec 20 → BitVec 10 → BitVec 32
  cr3 : BitVec 32
  frames : FrameMap

def Machine.directory (m : Machine) : BitVec 20 := frameOf m.cr3

/-- A word of the current directory. -/
def Machine.pde (m : Machine) (slot : BitVec 10) : BitVec 32 :=
  m.mem m.directory slot

def Machine.setWord (m : Machine) (frame : BitVec 20) (index : BitVec 10)
    (word : BitVec 32) : Machine :=
  { m with
    mem := Function.update m.mem frame
      (Function.update (m.mem frame) index word) }

def Machine.setFrames (m : Machine) (frames : FrameMap) : Machine :=
  { m with frames := frames }

/-- The processor's walk: the frame behind a virtual address. -/
def Machine.walk (m : Machine) (vaddr : BitVec 32) : Option (BitVec 20) :=
  let entry := m.pde (pdIndex vaddr)
  if present entry then
    let pageEntry := m.mem (frameOf entry) (ptIndex vaddr)
    if present pageEntry then some (frameOf pageEntry) else none
  else none

def Machine.load (m : Machine) (vaddr : BitVec 32) : Option (BitVec 32) :=
  match m.walk vaddr with
  | none => none
  | some frame => some (m.mem frame (wordIndex vaddr))

def Machine.store (m : Machine) (vaddr word : BitVec 32) : Option Machine :=
  match m.walk vaddr with
  | none => none
  | some frame => some (m.setWord frame (wordIndex vaddr) word)

/-! ## `map`, `unmap`, `get_paddr` and `get_pflags` -/

/-- The loop that clears the first words of a new table. -/
def zeroTable (m : Machine) (slot : BitVec 10) : ℕ → Option Machine
  | 0 => some m
  | count + 1 => do
      let cleared ← zeroTable m slot count
      cleared.store (ptAddress slot (BitVec.ofNat 10 count)) 0

/-- The first branch of `map`: an empty slot gets a new table. -/
def newTable (m : Machine) (slot : BitVec 10) : Option Machine := do
  let entry ← m.load (pdAddress slot)
  if entry = 0 then
    let (frames, address) := pmAlloc m.frames
    let named ← { m with frames := frames }.store (pdAddress slot)
      (BitVec.ofNat 32 address ||| 1)
    zeroTable named slot 0x400
  else some m

/-- The second branch of `map`: below the kernel, the slot takes the user flags
of the page. -/
def widen (m : Machine) (vaddr uflags : BitVec 32) : Option Machine := do
  let entry ← m.load (pdAddress (pdIndex vaddr))
  if uflags &&& entry ≠ uflags ∧ vaddr < 0xc0000000 then
    m.store (pdAddress (pdIndex vaddr)) (entry ||| uflags)
  else some m

def map (m : Machine) (vaddr paddr flags : BitVec 32) : Option Machine := do
  let uflags := flags &&& ptUser ||| flags &&& ptUserRw
  let tabled ← newTable m (pdIndex vaddr)
  let widened ← widen tabled vaddr uflags
  widened.store (ptAddress (pdIndex vaddr) (ptIndex vaddr)) (paddr ||| flags)

def unmap (m : Machine) (vaddr : BitVec 32) : Option Machine := do
  let entry ← m.load (pdAddress (pdIndex vaddr))
  if entry = 0 then some m
  else m.store (ptAddress (pdIndex vaddr) (ptIndex vaddr)) 0

/-- The word of a page in its table, 0 when the slot is empty: the common part
of `get_paddr` and `get_pflags`. -/
def getEntry (m : Machine) (vaddr : BitVec 32) : Option (BitVec 32) := do
  let entry ← m.load (pdAddress (pdIndex vaddr))
  if entry = 0 then some 0
  else m.load (ptAddress (pdIndex vaddr) (ptIndex vaddr))

def getPaddr (m : Machine) (vaddr : BitVec 32) : Option (BitVec 32) := do
  let entry ← getEntry m vaddr
  some (entry &&& 0xfffff000)

def getPflags (m : Machine) (vaddr : BitVec 32) : Option (BitVec 32) := do
  let entry ← getEntry m vaddr
  some (entry &&& 0xfff)

/-! ## The bits of words and addresses -/

theorem ptAddress_toNat (slot index : BitVec 10) :
    (ptAddress slot index).toNat =
      0xffc00000 + slot.toNat * 0x1000 + index.toNat * 4 := by
  have hslot := slot.isLt
  have hindex := index.isLt
  simp [ptAddress]
  omega

@[simp]
theorem pdIndex_ptAddress (slot index : BitVec 10) :
    pdIndex (ptAddress slot index) = 1023 := by
  have hslot := slot.isLt
  have hindex := index.isLt
  apply BitVec.eq_of_toNat_eq
  simp only [pdIndex, BitVec.extractLsb'_toNat, ptAddress_toNat,
    Nat.shiftRight_eq_div_pow, BitVec.ofNat_eq_ofNat, BitVec.toNat_ofNat]
  omega

@[simp]
theorem ptIndex_ptAddress (slot index : BitVec 10) :
    ptIndex (ptAddress slot index) = slot := by
  have hslot := slot.isLt
  have hindex := index.isLt
  apply BitVec.eq_of_toNat_eq
  simp only [ptIndex, BitVec.extractLsb'_toNat, ptAddress_toNat,
    Nat.shiftRight_eq_div_pow]
  omega

@[simp]
theorem wordIndex_ptAddress (slot index : BitVec 10) :
    wordIndex (ptAddress slot index) = index := by
  have hslot := slot.isLt
  have hindex := index.isLt
  apply BitVec.eq_of_toNat_eq
  simp only [wordIndex, BitVec.extractLsb'_toNat, ptAddress_toNat,
    Nat.shiftRight_eq_div_pow]
  omega

/-- The directory is the table of slot 1023. -/
theorem pdAddress_eq (index : BitVec 10) :
    pdAddress index = ptAddress 1023 index := by
  have hindex := index.isLt
  apply BitVec.eq_of_toNat_eq
  rw [ptAddress_toNat]
  simp [pdAddress]
  omega

theorem frameOf_or (word other : BitVec 32) :
    frameOf (word ||| other) = frameOf word ||| frameOf other := by
  ext bit hbit
  simp [frameOf]

theorem frameOf_of_lt {flags : BitVec 32} (hflags : flags < 0x1000) :
    frameOf flags = 0 := by
  have hlt : flags.toNat < 4096 := hflags
  apply BitVec.eq_of_toNat_eq
  simp only [frameOf, BitVec.extractLsb'_toNat, Nat.shiftRight_eq_div_pow,
    BitVec.ofNat_eq_ofNat, BitVec.toNat_ofNat]
  omega

/-- Flags leave the frame of a word alone. -/
theorem frameOf_or_flags (word : BitVec 32) {flags : BitVec 32}
    (hflags : flags < 0x1000) : frameOf (word ||| flags) = frameOf word := by
  rw [frameOf_or, frameOf_of_lt hflags]
  exact BitVec.or_zero

theorem present_or (word other : BitVec 32) :
    present (word ||| other) = (present word || present other) := by
  simp [present]

theorem ne_zero_of_present {word : BitVec 32} (hpresent : present word = true) :
    word ≠ 0 := by
  rintro rfl
  simp [present] at hpresent

theorem getLsbD_addressMask {bit : ℕ} (hbit : bit < 32) :
    (0xfffff000 : BitVec 32).getLsbD bit = decide (12 ≤ bit) := by
  have hall : ∀ k : Fin 32,
      (0xfffff000 : BitVec 32).getLsbD k = decide (12 ≤ (k : ℕ)) := by
    decide
  exact hall ⟨bit, hbit⟩

theorem getLsbD_flagMask {bit : ℕ} (hbit : bit < 32) :
    (0xfff : BitVec 32).getLsbD bit = decide (bit < 12) := by
  have hall : ∀ k : Fin 32,
      (0xfff : BitVec 32).getLsbD k = decide ((k : ℕ) < 12) := by
    decide
  exact hall ⟨bit, hbit⟩

theorem frameOf_address (word : BitVec 32) :
    frameOf (word &&& 0xfffff000) = frameOf word := by
  ext bit hbit
  simp only [frameOf, BitVec.getElem_extractLsb', BitVec.getLsbD_and,
    getLsbD_addressMask (show 12 + bit < 32 by omega)]
  simp

theorem frameOf_toNat (word : BitVec 32) :
    (frameOf word).toNat = word.toNat / 4096 := by
  have hlt := word.isLt
  rw [frameOf, BitVec.extractLsb'_toNat, Nat.shiftRight_eq_div_pow]
  omega

/-- The frame number of an address without its flags. -/
theorem address_toNat_div (word : BitVec 32) :
    (word &&& 0xfffff000).toNat / 4096 = (frameOf word).toNat := by
  rw [← frameOf_toNat, frameOf_address]

theorem getLsbD_of_aligned {paddr : BitVec 32} (haligned : paddr &&& 0xfff = 0)
    {bit : ℕ} (hbit : bit < 12) : paddr.getLsbD bit = false := by
  have hmasked := congrArg (fun word : BitVec 32 => word.getLsbD bit) haligned
  simp only [BitVec.getLsbD_and, getLsbD_flagMask (show bit < 32 by omega),
    hbit, decide_true, Bool.and_true] at hmasked
  simpa using hmasked

theorem getLsbD_of_flags {flags : BitVec 32} (hflags : flags < 0x1000)
    {bit : ℕ} (hbit : 12 ≤ bit) : flags.getLsbD bit = false := by
  have hlt : flags.toNat < 2 ^ 12 := hflags
  rw [BitVec.getLsbD]
  exact Nat.testBit_lt_two_pow
    (lt_of_lt_of_le hlt (Nat.pow_le_pow_right (by omega) hbit))

/-- The address that `get_paddr` reads back from a word written by `map`. -/
theorem address_of_entry {paddr flags : BitVec 32}
    (haligned : paddr &&& 0xfff = 0) (hflags : flags < 0x1000) :
    (paddr ||| flags) &&& 0xfffff000 = paddr := by
  apply BitVec.eq_of_getLsbD_eq
  intro bit hbit
  simp only [BitVec.getLsbD_and, BitVec.getLsbD_or, getLsbD_addressMask hbit]
  by_cases hhigh : 12 ≤ bit
  · simp [hhigh, getLsbD_of_flags hflags hhigh]
  · simp [hhigh, getLsbD_of_aligned haligned (show bit < 12 by omega)]

/-- The flags that `get_pflags` reads back. -/
theorem flags_of_entry {paddr flags : BitVec 32}
    (haligned : paddr &&& 0xfff = 0) (hflags : flags < 0x1000) :
    (paddr ||| flags) &&& 0xfff = flags := by
  apply BitVec.eq_of_getLsbD_eq
  intro bit hbit
  simp only [BitVec.getLsbD_and, BitVec.getLsbD_or, getLsbD_flagMask hbit]
  by_cases hlow : bit < 12
  · simp [hlow, getLsbD_of_aligned haligned hlow]
  · simp [hlow, getLsbD_of_flags hflags (show 12 ≤ bit by omega)]

/-! ## Access through the recursive slot -/

@[simp]
theorem setWord_cr3 (m : Machine) (frame : BitVec 20) (index : BitVec 10)
    (word : BitVec 32) : (m.setWord frame index word).cr3 = m.cr3 := rfl

@[simp]
theorem setWord_frames (m : Machine) (frame : BitVec 20) (index : BitVec 10)
    (word : BitVec 32) : (m.setWord frame index word).frames = m.frames := rfl

@[simp]
theorem setWord_directory (m : Machine) (frame : BitVec 20) (index : BitVec 10)
    (word : BitVec 32) :
    (m.setWord frame index word).directory = m.directory := rfl

theorem setWord_mem (m : Machine) (frame other : BitVec 20)
    (index position : BitVec 10) (word : BitVec 32) :
    (m.setWord frame index word).mem other position =
      if other = frame ∧ position = index then word
      else m.mem other position := by
  by_cases hframe : other = frame
  · subst hframe
    by_cases hindex : position = index
    · subst hindex
      simp [Machine.setWord]
    · simp [Machine.setWord, hindex]
  · simp [Machine.setWord, hframe]

/-- Slot 1023 of the current directory names the directory. -/
def Recursive (m : Machine) : Prop :=
  present (m.pde 1023) = true ∧ frameOf (m.pde 1023) = m.directory

theorem walk_ptAddress {m : Machine} (hrec : Recursive m)
    {slot : BitVec 10} (hslot : present (m.pde slot) = true)
    (index : BitVec 10) :
    m.walk (ptAddress slot index) = some (frameOf (m.pde slot)) := by
  have hentry : m.mem m.directory slot = m.pde slot := rfl
  simp only [Machine.walk, pdIndex_ptAddress, ptIndex_ptAddress, hrec.1, hrec.2,
    hentry, hslot, if_true]

theorem load_ptAddress {m : Machine} (hrec : Recursive m)
    {slot : BitVec 10} (hslot : present (m.pde slot) = true)
    (index : BitVec 10) :
    m.load (ptAddress slot index) =
      some (m.mem (frameOf (m.pde slot)) index) := by
  rw [Machine.load, walk_ptAddress hrec hslot, wordIndex_ptAddress]

theorem store_ptAddress {m : Machine} (hrec : Recursive m)
    {slot : BitVec 10} (hslot : present (m.pde slot) = true)
    (index : BitVec 10) (word : BitVec 32) :
    m.store (ptAddress slot index) word =
      some (m.setWord (frameOf (m.pde slot)) index word) := by
  rw [Machine.store, walk_ptAddress hrec hslot, wordIndex_ptAddress]

theorem load_pdAddress {m : Machine} (hrec : Recursive m) (slot : BitVec 10) :
    m.load (pdAddress slot) = some (m.pde slot) := by
  rw [pdAddress_eq, load_ptAddress hrec hrec.1, hrec.2]
  rfl

theorem store_pdAddress {m : Machine} (hrec : Recursive m) (slot : BitVec 10)
    (word : BitVec 32) :
    m.store (pdAddress slot) word = some (m.setWord m.directory slot word) := by
  rw [pdAddress_eq, store_ptAddress hrec hrec.1, hrec.2]

/-- A write elsewhere keeps the recursive slot. -/
theorem Recursive.setWord {m : Machine} (hrec : Recursive m)
    {frame : BitVec 20} {index : BitVec 10} (word : BitVec 32)
    (hother : frame = m.directory → index ≠ 1023) :
    Recursive (m.setWord frame index word) := by
  have hsame : (m.setWord frame index word).pde 1023 = m.pde 1023 := by
    rw [Machine.pde, setWord_directory, setWord_mem, if_neg]
    · rfl
    · rintro ⟨hframe, hindex⟩
      exact hother hframe.symm hindex.symm
  rw [Recursive, hsame]
  exact hrec

/-! ## The parts of `map` -/

def Machine.setTable (m : Machine) (frame : BitVec 20)
    (table : BitVec 10 → BitVec 32) : Machine :=
  { m with mem := Function.update m.mem frame table }

@[simp]
theorem setTable_directory (m : Machine) (frame : BitVec 20)
    (table : BitVec 10 → BitVec 32) :
    (m.setTable frame table).directory = m.directory := rfl

theorem setTable_pde {m : Machine} {frame : BitVec 20}
    (hframe : frame ≠ m.directory) (table : BitVec 10 → BitVec 32)
    (slot : BitVec 10) : (m.setTable frame table).pde slot = m.pde slot := by
  change Function.update m.mem frame table m.directory slot = m.pde slot
  rw [Function.update_of_ne hframe.symm]
  rfl

theorem zeroTable_eq {m : Machine} (hrec : Recursive m) {slot : BitVec 10}
    (hslot : present (m.pde slot) = true)
    (hframe : frameOf (m.pde slot) ≠ m.directory) {count : ℕ}
    (hcount : count ≤ 1024) :
    zeroTable m slot count = some (m.setTable (frameOf (m.pde slot))
      fun index => if index.toNat < count then 0
        else m.mem (frameOf (m.pde slot)) index) := by
  induction count with
  | zero => simp [zeroTable, Machine.setTable]
  | succ count ih =>
      -- the directory is another frame, so the walk still ends in the table
      have hpde := setTable_pde hframe
      have hrec' : ∀ table,
          Recursive (m.setTable (frameOf (m.pde slot)) table) := by
        intro table
        rw [Recursive, hpde]
        exact hrec
      simp only [zeroTable, ih (by omega), Option.bind_eq_bind,
        Option.bind_some]
      rw [store_ptAddress (hrec' _) (by rw [hpde, hslot]), hpde]
      congr 1
      simp only [Machine.setWord, Machine.setTable, Function.update_self,
        Function.update_idem]
      congr 2
      funext index
      by_cases hindex : index = BitVec.ofNat 10 count
      · subst hindex
        have hsmall : (BitVec.ofNat 10 count).toNat = count := by
          simp only [BitVec.toNat_ofNat]
          omega
        simp [hsmall]
      · have hne : index.toNat ≠ count := by
          intro heq
          apply hindex
          rw [← heq, BitVec.ofNat_toNat, BitVec.setWidth_eq]
        have hbound : index.toNat < count + 1 ↔ index.toNat < count := by omega
        simp [hindex, hbound]

theorem zeroTable_all {m : Machine} (hrec : Recursive m) {slot : BitVec 10}
    (hslot : present (m.pde slot) = true)
    (hframe : frameOf (m.pde slot) ≠ m.directory) :
    zeroTable m slot 0x400 =
      some (m.setTable (frameOf (m.pde slot)) fun _ => 0) := by
  have hall : ∀ index : BitVec 10, index.toNat < 0x400 := fun index => index.isLt
  rw [zeroTable_eq hrec hslot hframe (by omega)]
  simp only [hall, if_true]

theorem newTable_of_ne {m : Machine} (hrec : Recursive m) {slot : BitVec 10}
    (hslot : m.pde slot ≠ 0) : newTable m slot = some m := by
  simp only [newTable, load_pdAddress hrec, Option.bind_eq_bind, Option.bind_some,
    if_neg hslot]

/-- The frame that `pm_alloc` would return next. -/
def Machine.nextFrame (m : Machine) : BitVec 20 :=
  frameOf (BitVec.ofNat 32 (pmAlloc m.frames).2)

/-- The machine after an empty slot has got its table. -/
def Machine.tabled (m : Machine) (slot : BitVec 10) : Machine :=
  ({ m with frames := (pmAlloc m.frames).1 }.setWord m.directory slot
    (BitVec.ofNat 32 (pmAlloc m.frames).2 ||| 1)).setTable m.nextFrame fun _ => 0

theorem Recursive.ne_last {m : Machine} (hrec : Recursive m) {slot : BitVec 10}
    (hslot : m.pde slot = 0) : slot ≠ 1023 := by
  rintro rfl
  exact ne_zero_of_present hrec.1 hslot

theorem newTable_of_eq {m : Machine} (hrec : Recursive m) {slot : BitVec 10}
    (hslot : m.pde slot = 0) (hfresh : m.nextFrame ≠ m.directory) :
    newTable m slot = some (m.tabled slot) := by
  have hlast := hrec.ne_last hslot
  have hrec' : Recursive { m with frames := (pmAlloc m.frames).1 } := hrec
  have hone : (1 : BitVec 32) < 0x1000 := by decide
  set named := { m with frames := (pmAlloc m.frames).1 }.setWord m.directory slot
    (BitVec.ofNat 32 (pmAlloc m.frames).2 ||| 1) with hnamed
  have hpde : named.pde slot = BitVec.ofNat 32 (pmAlloc m.frames).2 ||| 1 := by
    rw [Machine.pde, hnamed, setWord_mem, if_pos ⟨rfl, rfl⟩]
  have hframe : frameOf (named.pde slot) = m.nextFrame := by
    rw [hpde, frameOf_or_flags _ hone]
    rfl
  have hpresent : present (named.pde slot) = true := by
    rw [hpde, present_or]
    simp [present]
  have hrecursive : Recursive named := by
    rw [hnamed]
    exact hrec'.setWord _ fun _ => hlast
  have hstore : { m with frames := (pmAlloc m.frames).1 }.store (pdAddress slot)
      (BitVec.ofNat 32 (pmAlloc m.frames).2 ||| 1) = some named :=
    store_pdAddress hrec' slot _
  simp only [newTable, load_pdAddress hrec, Option.bind_eq_bind, Option.bind_some,
    if_pos hslot, hstore]
  rw [zeroTable_all hrecursive hpresent (by rwa [hframe]), hframe]
  rfl

theorem widen_eq {m : Machine} (hrec : Recursive m) (vaddr uflags : BitVec 32) :
    widen m vaddr uflags =
      some (if uflags &&& m.pde (pdIndex vaddr) ≠ uflags ∧ vaddr < 0xc0000000 then
        m.setWord m.directory (pdIndex vaddr) (m.pde (pdIndex vaddr) ||| uflags)
      else m) := by
  simp only [widen, load_pdAddress hrec, Option.bind_eq_bind, Option.bind_some,
    store_pdAddress hrec]
  split
  · rfl
  · rfl

/-! ## Address spaces -/

variable {slots : Set (BitVec 10)}

/-- The slots of a set that are in use name page tables of their own. -/
structure Addressable (slots : Set (BitVec 10)) (m : Machine) : Prop where
  recursive : Recursive m
  present : ∀ slot ∈ slots, m.pde slot ≠ 0 → present (m.pde slot) = true
  notDirectory : ∀ slot ∈ slots, m.pde slot ≠ 0 →
    frameOf (m.pde slot) ≠ m.directory
  distinct : ∀ slot ∈ slots, ∀ other ∈ slots, m.pde slot ≠ 0 → m.pde other ≠ 0 →
    frameOf (m.pde slot) = frameOf (m.pde other) → slot = other

/-- The word of a page, 0 when its slot is empty. -/
def Machine.entry (m : Machine) (slot index : BitVec 10) : BitVec 32 :=
  if m.pde slot = 0 then 0 else m.mem (frameOf (m.pde slot)) index

/-- The frame `pm_alloc` returns next is used by no table of the set. -/
def Fresh (slots : Set (BitVec 10)) (m : Machine) : Prop :=
  m.nextFrame ≠ 0 ∧ m.nextFrame ≠ m.directory ∧
    ∀ slot ∈ slots, m.pde slot ≠ 0 → frameOf (m.pde slot) ≠ m.nextFrame

theorem getEntry_eq {m : Machine} (haddr : Addressable slots m) {vaddr : BitVec 32}
    (hslot : pdIndex vaddr ∈ slots) :
    getEntry m vaddr = some (m.entry (pdIndex vaddr) (ptIndex vaddr)) := by
  simp only [getEntry, load_pdAddress haddr.recursive, Option.bind_eq_bind,
    Option.bind_some, Machine.entry]
  by_cases hempty : m.pde (pdIndex vaddr) = 0
  · rw [if_pos hempty, if_pos hempty]
  · rw [if_neg hempty, if_neg hempty,
      load_ptAddress haddr.recursive (haddr.present _ hslot hempty)]

/-- A directory with the same slots but for flags. -/
structure SameTables (m next : Machine) : Prop where
  directory : next.directory = m.directory
  empty : ∀ slot, next.pde slot = 0 ↔ m.pde slot = 0
  frame : ∀ slot, frameOf (next.pde slot) = frameOf (m.pde slot)
  present : ∀ slot, Paging.present (m.pde slot) = true →
    Paging.present (next.pde slot) = true

theorem SameTables.addressable {m next : Machine} (hsame : SameTables m next)
    (haddr : Addressable slots m) : Addressable slots next where
  recursive :=
    ⟨hsame.present _ haddr.recursive.1, by
      rw [hsame.frame, haddr.recursive.2, hsame.directory]⟩
  present slot hslot hne :=
    hsame.present slot (haddr.present slot hslot (mt (hsame.empty slot).mpr hne))
  notDirectory slot hslot hne := by
    rw [hsame.frame, hsame.directory]
    exact haddr.notDirectory slot hslot (mt (hsame.empty slot).mpr hne)
  distinct slot hslot other hother hne hne' hframe := by
    rw [hsame.frame, hsame.frame] at hframe
    exact haddr.distinct slot hslot other hother (mt (hsame.empty slot).mpr hne)
      (mt (hsame.empty other).mpr hne') hframe

theorem or_eq_zero_left {word other : BitVec 32} (hzero : word ||| other = 0) :
    word = 0 := by
  apply BitVec.eq_of_getLsbD_eq
  intro bit hbit
  have hor := congrArg (fun value : BitVec 32 => value.getLsbD bit) hzero
  simp only [BitVec.getLsbD_or, BitVec.ofNat_eq_ofNat, BitVec.getLsbD_zero,
    Bool.or_eq_false_iff] at hor
  simpa using hor.1

/-- Flags added to a slot in use. -/
theorem sameTables_flags {m : Machine} {slot : BitVec 10} (hslot : m.pde slot ≠ 0)
    {flags : BitVec 32} (hflags : flags < 0x1000) :
    SameTables m (m.setWord m.directory slot (m.pde slot ||| flags)) := by
  have hpde : ∀ other, (m.setWord m.directory slot (m.pde slot ||| flags)).pde other =
      if other = slot then m.pde slot ||| flags else m.pde other := by
    intro other
    rw [Machine.pde, setWord_directory, setWord_mem]
    simp [Machine.pde]
  constructor
  · rfl
  · intro other
    rw [hpde]
    by_cases hother : other = slot
    · subst hother
      rw [if_pos rfl]
      exact iff_of_false (mt or_eq_zero_left hslot) hslot
    · rw [if_neg hother]
  · intro other
    rw [hpde]
    by_cases hother : other = slot
    · subst hother
      rw [if_pos rfl, frameOf_or_flags _ hflags]
    · rw [if_neg hother]
  · intro other hpresent
    rw [hpde]
    by_cases hother : other = slot
    · subst hother
      rw [if_pos rfl, present_or, hpresent]
      rfl
    · rw [if_neg hother, hpresent]

/-- A word written in a page table. -/
theorem sameTables_table {m : Machine} {frame : BitVec 20}
    (hframe : frame ≠ m.directory) (index : BitVec 10) (word : BitVec 32) :
    SameTables m (m.setWord frame index word) := by
  have hpde : ∀ slot, (m.setWord frame index word).pde slot = m.pde slot :=
    setTable_pde hframe _
  constructor
  · rfl
  · intro slot
    rw [hpde]
  · intro slot
    rw [hpde]
  · intro slot hpresent
    rw [hpde, hpresent]

/-- The word of a page after a write to the table of one slot. -/
theorem entry_setWord {m : Machine} (haddr : Addressable slots m) {slot : BitVec 10}
    (hslot : slot ∈ slots) (hne : m.pde slot ≠ 0) (index : BitVec 10)
    (word : BitVec 32) {other : BitVec 10} (hother : other ∈ slots)
    (position : BitVec 10) :
    (m.setWord (frameOf (m.pde slot)) index word).entry other position =
      if other = slot ∧ position = index then word
      else m.entry other position := by
  have hframe := haddr.notDirectory slot hslot hne
  have hpde : ∀ third,
      (m.setWord (frameOf (m.pde slot)) index word).pde third = m.pde third :=
    setTable_pde hframe _
  simp only [Machine.entry, hpde, setWord_mem]
  by_cases hempty : m.pde other = 0
  · have hneq : other ≠ slot := by
      intro heq
      exact hne (heq ▸ hempty)
    simp [hempty, hneq]
  · simp only [if_neg hempty]
    by_cases hsame : other = slot
    · subst hsame
      simp
    · have hapart : frameOf (m.pde other) ≠ frameOf (m.pde slot) := by
        intro heq
        exact hsame (haddr.distinct other hother slot hslot hempty hne heq)
      simp [hsame, hapart]

theorem setTable_mem (m : Machine) (frame other : BitVec 20)
    (table : BitVec 10 → BitVec 32) (index : BitVec 10) :
    (m.setTable frame table).mem other index =
      if other = frame then table index else m.mem other index := by
  by_cases hframe : other = frame
  · subst hframe
    simp [Machine.setTable]
  · simp [Machine.setTable, hframe]

theorem tabled_mem (m : Machine) (slot : BitVec 10) (frame : BitVec 20)
    (index : BitVec 10) :
    (m.tabled slot).mem frame index =
      if frame = m.nextFrame then 0
      else if frame = m.directory ∧ index = slot then
        BitVec.ofNat 32 (pmAlloc m.frames).2 ||| 1
      else m.mem frame index := by
  rw [Machine.tabled, setTable_mem, setWord_mem]

theorem tabled_pde {m : Machine} (hfresh : m.nextFrame ≠ m.directory)
    (slot other : BitVec 10) :
    (m.tabled slot).pde other =
      if other = slot then BitVec.ofNat 32 (pmAlloc m.frames).2 ||| 1
      else m.pde other := by
  change (m.tabled slot).mem m.directory other = _
  rw [tabled_mem, if_neg hfresh.symm]
  simp [Machine.pde]

theorem tabled_ne_zero {m : Machine} (hfresh : m.nextFrame ≠ m.directory)
    (slot : BitVec 10) : (m.tabled slot).pde slot ≠ 0 := by
  rw [tabled_pde hfresh, if_pos rfl]
  apply ne_zero_of_present
  rw [present_or]
  simp [present]

theorem frameOf_newEntry (m : Machine) :
    frameOf (BitVec.ofNat 32 (pmAlloc m.frames).2 ||| 1) = m.nextFrame :=
  frameOf_or_flags _ (by decide)

/-- The frame `pm_alloc` returns next is another one than those of the directory
and of the tables of the set. -/
def Unused (slots : Set (BitVec 10)) (m : Machine) : Prop :=
  m.nextFrame ≠ m.directory ∧
    ∀ slot ∈ slots, m.pde slot ≠ 0 → frameOf (m.pde slot) ≠ m.nextFrame

/-- A new table keeps the address space well formed. -/
theorem tabled_addressable {m : Machine} (haddr : Addressable slots m)
    {slot : BitVec 10} (hempty : m.pde slot = 0) (hunused : Unused slots m) :
    Addressable slots (m.tabled slot) := by
  have hpde := tabled_pde hunused.1 slot
  have hframe := frameOf_newEntry m
  constructor
  · rw [Recursive, hpde, if_neg (haddr.recursive.ne_last hempty).symm]
    exact haddr.recursive
  · intro other hother hne
    rw [hpde] at hne ⊢
    by_cases hnew : other = slot
    · rw [if_pos hnew, present_or]
      simp [present]
    · rw [if_neg hnew] at hne ⊢
      exact haddr.present other hother hne
  · intro other hother hne
    change _ ≠ m.directory
    rw [hpde] at hne ⊢
    by_cases hnew : other = slot
    · rw [if_pos hnew, hframe]
      exact hunused.1
    · rw [if_neg hnew] at hne ⊢
      exact haddr.notDirectory other hother hne
  · intro first hfirst second hsecond hne hne' hsame
    rw [hpde] at hne hne'
    rw [hpde, hpde] at hsame
    by_cases hnew : first = slot
    · by_cases hnew' : second = slot
      · rw [hnew, hnew']
      · rw [if_pos hnew, if_neg hnew', hframe] at hsame
        rw [if_neg hnew'] at hne'
        exact absurd hsame.symm (hunused.2 second hsecond hne')
    · rw [if_neg hnew] at hne hsame
      by_cases hnew' : second = slot
      · rw [if_pos hnew', hframe] at hsame
        exact absurd hsame (hunused.2 first hfirst hne)
      · rw [if_neg hnew'] at hne' hsame
        exact haddr.distinct first hfirst second hsecond hne hne' hsame

/-- A new table maps nothing. -/
theorem tabled_entry {m : Machine} (haddr : Addressable slots m) {slot : BitVec 10}
    (hempty : m.pde slot = 0) (hunused : Unused slots m) {other : BitVec 10}
    (hother : other ∈ slots) (index : BitVec 10) :
    (m.tabled slot).entry other index = m.entry other index := by
  simp only [Machine.entry, tabled_pde hunused.1]
  by_cases hnew : other = slot
  · subst hnew
    simp only [if_true, frameOf_newEntry, tabled_mem, hempty, ite_id]
  · simp only [if_neg hnew]
    by_cases hzero : m.pde other = 0
    · simp [hzero]
    · have hapart := hunused.2 other hother hzero
      have hdirectory := haddr.notDirectory other hother hzero
      simp [tabled_mem, hapart, hdirectory]

theorem SameTables.entry_eq {m next : Machine} (hsame : SameTables m next)
    {slot : BitVec 10}
    (hmem : next.mem (frameOf (m.pde slot)) = m.mem (frameOf (m.pde slot)))
    (index : BitVec 10) : next.entry slot index = m.entry slot index := by
  simp only [Machine.entry, hsame.empty, hsame.frame, hmem]

theorem userFlags_lt (flags : BitVec 32) :
    flags &&& ptUser ||| flags &&& ptUserRw < 0x1000 := by
  have huser : (flags &&& ptUser).toNat < 2 ^ 12 := by
    rw [BitVec.toNat_and]
    exact lt_of_le_of_lt Nat.and_le_right (by decide)
  have hrw : (flags &&& ptUserRw).toNat < 2 ^ 12 := by
    rw [BitVec.toNat_and]
    exact lt_of_le_of_lt Nat.and_le_right (by decide)
  have hor := Nat.or_lt_two_pow huser hrw
  rw [← BitVec.toNat_or] at hor
  exact hor

/-- What `widen` may change is seen by no page. -/
theorem widen_spec {m : Machine} (haddr : Addressable slots m) {vaddr : BitVec 32}
    (hne : m.pde (pdIndex vaddr) ≠ 0) {uflags : BitVec 32}
    (huflags : uflags < 0x1000) :
    ∃ next, widen m vaddr uflags = some next ∧ SameTables m next ∧
      ∀ slot index, slot ∈ slots → next.entry slot index = m.entry slot index := by
  rw [widen_eq haddr.recursive]
  by_cases hwiden : uflags &&& m.pde (pdIndex vaddr) ≠ uflags ∧ vaddr < 0xc0000000
  · rw [if_pos hwiden]
    have hsame := sameTables_flags hne huflags
    refine ⟨_, rfl, hsame, ?_⟩
    intro slot index hslot
    by_cases hempty : m.pde slot = 0
    · rw [Machine.entry, Machine.entry, if_pos hempty,
        if_pos ((hsame.empty slot).mpr hempty)]
    · apply hsame.entry_eq
      exact Function.update_of_ne (haddr.notDirectory slot hslot hempty) _ _
  · rw [if_neg hwiden]
    exact ⟨m, rfl, ⟨rfl, fun _ => Iff.rfl, fun _ => rfl, fun _ h => h⟩,
      fun _ _ _ => rfl⟩

/-- The result of the two branches before the write of `map`: the slot has a
table, and no page has changed. -/
theorem newTable_spec {m : Machine} (haddr : Addressable slots m) {slot : BitVec 10}
    (hfresh : m.pde slot = 0 → Fresh slots m) :
    ∃ next, newTable m slot = some next ∧ Addressable slots next ∧
      next.pde slot ≠ 0 ∧
      ∀ other index, other ∈ slots →
        next.entry other index = m.entry other index := by
  by_cases hempty : m.pde slot = 0
  · have hnext := hfresh hempty
    refine ⟨m.tabled slot, newTable_of_eq haddr.recursive hempty hnext.2.1,
      tabled_addressable haddr hempty hnext.2, ?_, ?_⟩
    · exact tabled_ne_zero hnext.2.1 slot
    · intro other index hother
      exact tabled_entry haddr hempty hnext.2 hother index
  · exact ⟨m, newTable_of_ne haddr.recursive hempty, haddr, hempty,
      fun _ _ _ => rfl⟩

/-- `map` writes the word of one page and no other. -/
theorem map_spec {m : Machine} (haddr : Addressable slots m) {vaddr : BitVec 32}
    (hslot : pdIndex vaddr ∈ slots)
    (hfresh : m.pde (pdIndex vaddr) = 0 → Fresh slots m) (paddr flags : BitVec 32) :
    ∃ next, map m vaddr paddr flags = some next ∧ Addressable slots next ∧
      ∀ slot index, slot ∈ slots → next.entry slot index =
        if slot = pdIndex vaddr ∧ index = ptIndex vaddr then paddr ||| flags
        else m.entry slot index := by
  obtain ⟨tabled, htabled, haddr₁, hne₁, hentry₁⟩ :=
    newTable_spec haddr hfresh
  obtain ⟨widened, hwidened, hsame, hentry₂⟩ :=
    widen_spec haddr₁ hne₁ (userFlags_lt flags)
  have haddr₂ := hsame.addressable haddr₁
  have hne₂ : widened.pde (pdIndex vaddr) ≠ 0 := mt (hsame.empty _).mp hne₁
  have hframe := haddr₂.notDirectory _ hslot hne₂
  refine ⟨_, ?_, (sameTables_table hframe (ptIndex vaddr)
    (paddr ||| flags)).addressable haddr₂, ?_⟩
  · simp only [map, htabled, hwidened, Option.bind_eq_bind, Option.bind_some]
    exact store_ptAddress haddr₂.recursive (haddr₂.present _ hslot hne₂) _ _
  · intro slot index hother
    rw [entry_setWord haddr₂ hslot hne₂ _ _ hother, hentry₂ slot index hother,
      hentry₁ slot index hother]

theorem unmap_spec {m : Machine} (haddr : Addressable slots m) {vaddr : BitVec 32}
    (hslot : pdIndex vaddr ∈ slots) :
    ∃ next, unmap m vaddr = some next ∧ Addressable slots next ∧
      ∀ slot index, slot ∈ slots → next.entry slot index =
        if slot = pdIndex vaddr ∧ index = ptIndex vaddr then 0
        else m.entry slot index := by
  simp only [unmap, load_pdAddress haddr.recursive, Option.bind_eq_bind,
    Option.bind_some]
  by_cases hempty : m.pde (pdIndex vaddr) = 0
  · refine ⟨m, if_pos hempty, haddr, ?_⟩
    intro slot index hother
    by_cases hpage : slot = pdIndex vaddr ∧ index = ptIndex vaddr
    · rw [if_pos hpage, hpage.1]
      exact if_pos hempty
    · rw [if_neg hpage]
  · have hframe := haddr.notDirectory _ hslot hempty
    rw [if_neg hempty,
      store_ptAddress haddr.recursive (haddr.present _ hslot hempty)]
    refine ⟨_, rfl, (sameTables_table hframe (ptIndex vaddr) 0).addressable haddr,
      ?_⟩
    intro slot index hother
    exact entry_setWord haddr hslot hempty _ _ hother index

/-! ## The partial map the tables stand for -/

inductive PageCall where
  | map (vaddr paddr flags : BitVec 32)
  | unmap (vaddr : BitVec 32)

def PageCall.vaddr : PageCall → BitVec 32
  | map vaddr _ _ => vaddr
  | unmap vaddr => vaddr

def step (m : Machine) : PageCall → Option Machine
  | .map vaddr paddr flags => map m vaddr paddr flags
  | .unmap vaddr => unmap m vaddr

/-- The addresses whose slot is neither the first nor the last. -/
def InRange (vaddr : BitVec 32) : Prop :=
  0x400000 ≤ vaddr ∧ vaddr < 0xffc00000

/-- The directory slots of these addresses. -/
def tableSlots : Set (BitVec 10) := {slot | slot ≠ 0 ∧ slot ≠ 1023}

/-- What a caller of `map` and `unmap` keeps to, and what it relies on from
`pm_alloc` when the slot has no table. -/
def Allowed (m : Machine) : PageCall → Prop
  | .map vaddr paddr flags =>
      InRange vaddr ∧ paddr &&& 0xfff = 0 ∧ flags < 0x1000 ∧
        (m.pde (pdIndex vaddr) = 0 → Fresh tableSlots m)
  | .unmap vaddr => InRange vaddr

/-- What `get_paddr` and `get_pflags` say of every page. -/
abbrev PageMap := BitVec 20 → BitVec 32 × BitVec 32

def PageMap.next (pages : PageMap) : PageCall → PageMap
  | .map vaddr paddr flags =>
      Function.update pages (frameOf vaddr) (paddr, flags)
  | .unmap vaddr => Function.update pages (frameOf vaddr) (0, 0)

/-- The map as it is read back page by page. -/
def Shows (m : Machine) (pages : PageMap) : Prop :=
  ∀ vaddr, InRange vaddr →
    getPaddr m vaddr = some (pages (frameOf vaddr)).1 ∧
      getPflags m vaddr = some (pages (frameOf vaddr)).2

theorem pdIndex_mem_tableSlots {vaddr : BitVec 32} (hrange : InRange vaddr) :
    pdIndex vaddr ∈ tableSlots := by
  have hlow : 0x400000 ≤ vaddr.toNat := hrange.1
  have hhigh : vaddr.toNat < 0xffc00000 := hrange.2
  have hindex : (pdIndex vaddr).toNat = vaddr.toNat / 2 ^ 22 % 2 ^ 10 := by
    rw [pdIndex, BitVec.extractLsb'_toNat, Nat.shiftRight_eq_div_pow]
  constructor
  · intro heq
    have hzero : (pdIndex vaddr).toNat = 0 := by rw [heq]; rfl
    omega
  · intro heq
    have hlast : (pdIndex vaddr).toNat = 1023 := by rw [heq]; rfl
    omega

/-- Two addresses are in one page when both their indices agree. -/
theorem samePage_iff (vaddr other : BitVec 32) :
    pdIndex other = pdIndex vaddr ∧ ptIndex other = ptIndex vaddr ↔
      frameOf other = frameOf vaddr := by
  have hvaddr := vaddr.isLt
  have hother := other.isLt
  simp only [← BitVec.toNat_inj, pdIndex, ptIndex, frameOf,
    BitVec.extractLsb'_toNat, Nat.shiftRight_eq_div_pow]
  omega

/-- The pages a call leaves alone and the one it sets, as both readers see
them. -/
theorem shows_update {m next : Machine} (haddr : Addressable tableSlots m)
    (hnext : Addressable tableSlots next) {pages : PageMap} (hshows : Shows m pages)
    {vaddr paddr flags : BitVec 32}
    (haligned : paddr &&& 0xfff = 0) (hflags : flags < 0x1000)
    (hentry : ∀ slot index, slot ∈ tableSlots → next.entry slot index =
      if slot = pdIndex vaddr ∧ index = ptIndex vaddr then paddr ||| flags
      else m.entry slot index) :
    Shows next (Function.update pages (frameOf vaddr) (paddr, flags)) := by
  intro other hother
  have hslot := pdIndex_mem_tableSlots hother
  have hword := hentry _ (ptIndex other) hslot
  simp only [samePage_iff] at hword
  by_cases hpage : frameOf other = frameOf vaddr
  · rw [if_pos hpage] at hword
    simp only [getPaddr, getPflags, getEntry_eq hnext hslot, hword, hpage,
      Function.update_self, Option.bind_eq_bind, Option.bind_some,
      address_of_entry haligned hflags, flags_of_entry haligned hflags,
      and_self]
  · rw [if_neg hpage] at hword
    have hold := hshows other hother
    simp only [getPaddr, getPflags, getEntry_eq hnext hslot,
      getEntry_eq haddr hslot, hword, Function.update_of_ne hpage] at hold ⊢
    exact hold

/-- The first address of a page. -/
def pageAddress (page : BitVec 20) : BitVec 32 := page ++ 0#12

@[simp]
theorem frameOf_pageAddress (page : BitVec 20) :
    frameOf (pageAddress page) = page := by
  have hpage := page.isLt
  apply BitVec.eq_of_toNat_eq
  simp only [frameOf, pageAddress, BitVec.extractLsb'_toNat, BitVec.toNat_append,
    BitVec.toNat_zero, Nat.or_zero, Nat.shiftRight_eq_div_pow, Nat.shiftLeft_eq]
  omega

/-- The map an address space stands for. -/
def Machine.pages (m : Machine) : PageMap := fun page =>
  let entry := m.entry (pdIndex (pageAddress page)) (ptIndex (pageAddress page))
  (entry &&& 0xfffff000, entry &&& 0xfff)

theorem shows_pages {m : Machine} (haddr : Addressable tableSlots m) : Shows m m.pages := by
  intro vaddr hrange
  have hpage : pdIndex (pageAddress (frameOf vaddr)) = pdIndex vaddr ∧
      ptIndex (pageAddress (frameOf vaddr)) = ptIndex vaddr := by
    rw [samePage_iff, frameOf_pageAddress]
  simp only [getPaddr, getPflags, getEntry_eq haddr (pdIndex_mem_tableSlots hrange),
    Machine.pages, hpage.1, hpage.2, Option.bind_eq_bind, Option.bind_some,
    and_self]

/-- One call follows the partial map. -/
theorem step_simulates (m : Machine) (pages : PageMap) (call : PageCall)
    (hrelated : Addressable tableSlots m ∧ Shows m pages) (hallowed : Allowed m call) :
    ∃ next, step m call = some next ∧
      (Addressable tableSlots next ∧ Shows next (pages.next call)) := by
  obtain ⟨haddr, hshows⟩ := hrelated
  cases call with
  | map vaddr paddr flags =>
      obtain ⟨hrange, haligned, hflags, hfresh⟩ := hallowed
      obtain ⟨next, hmap, hnext, hentry⟩ :=
        map_spec haddr (pdIndex_mem_tableSlots hrange) hfresh paddr flags
      exact ⟨next, hmap, hnext,
        shows_update haddr hnext hshows haligned hflags hentry⟩
  | unmap vaddr =>
      obtain ⟨next, hunmap, hnext, hentry⟩ :=
        unmap_spec haddr (pdIndex_mem_tableSlots hallowed)
      have hzero : ∀ slot index, slot ∈ tableSlots → next.entry slot index =
          if slot = pdIndex vaddr ∧ index = ptIndex vaddr then 0 ||| 0
          else m.entry slot index := by
        simpa using hentry
      exact ⟨next, hunmap, hnext,
        shows_update haddr hnext hshows (by decide) (by decide) hzero⟩

/-! ## Every sequence of calls -/

/-- The last call for the page of an address. -/
def lastCall (vaddr : BitVec 32) (calls : List PageCall) : Option PageCall :=
  calls.reverse.find? fun call => frameOf call.vaddr == frameOf vaddr

/-- The map after a run is what the last call for each page made of it. -/
theorem foldl_next (pages : PageMap) (calls : List PageCall)
    (vaddr : BitVec 32) :
    calls.foldl PageMap.next pages (frameOf vaddr) =
      match lastCall vaddr calls with
      | some (.map _ paddr flags) => (paddr, flags)
      | some (.unmap _) => (0, 0)
      | none => pages (frameOf vaddr) := by
  induction calls using List.reverseRecOn with
  | nil => rfl
  | append_singleton calls call ih =>
      simp only [List.foldl_append, List.foldl_cons, List.foldl_nil, lastCall,
        List.reverse_append, List.reverse_cons, List.reverse_nil, List.nil_append,
        List.singleton_append, List.find?_cons] at ih ⊢
      by_cases hpage : frameOf call.vaddr = frameOf vaddr
      · simp only [hpage, beq_self_eq_true]
        cases call with
        | map other paddr flags =>
            have hsame : frameOf other = frameOf vaddr := hpage
            simp [PageMap.next, hsame]
        | unmap other =>
            have hsame : frameOf other = frameOf vaddr := hpage
            simp [PageMap.next, hsame]
      · have hskip : (frameOf call.vaddr == frameOf vaddr) = false := by
          simpa using hpage
        simp only [hskip]
        rw [← ih]
        cases call with
        | map other paddr flags =>
            exact Function.update_of_ne (Ne.symm hpage) _ _
        | unmap other =>
            exact Function.update_of_ne (Ne.symm hpage) _ _

/-- Page tables refine a partial map: after any sequence of calls every page
reads back as its last call left it, and a page without one as it was. -/
theorem tables_refine_map (m : Machine) (calls : List PageCall)
    (haddr : Addressable tableSlots m) (hcalls : Meets step Allowed m calls) :
    ∃ final, exec step m calls = some final ∧
      ∀ vaddr, InRange vaddr →
        (getPaddr final vaddr, getPflags final vaddr) =
          match lastCall vaddr calls with
          | some (.map _ paddr flags) => (some paddr, some flags)
          | some (.unmap _) => (some 0, some 0)
          | none => (getPaddr m vaddr, getPflags m vaddr) := by
  obtain ⟨final, hrun, -, hshows⟩ :=
    exec_simulates step_simulates ⟨haddr, shows_pages haddr⟩ hcalls
  refine ⟨final, hrun, ?_⟩
  intro vaddr hrange
  obtain ⟨hpaddr, hpflags⟩ := hshows vaddr hrange
  obtain ⟨hpaddr₀, hpflags₀⟩ := shows_pages haddr vaddr hrange
  rw [hpaddr, hpflags, hpaddr₀, hpflags₀, foldl_next]
  cases lastCall vaddr calls with
  | none => rfl
  | some call =>
      cases call with
      | map other paddr flags => rfl
      | unmap other => rfl

/-- A directory in frame 1 whose only slot in use is the recursive one. -/
def bareMachine : Machine where
  mem frame index := if frame = 1 ∧ index = 1023 then 0x1001 else 0
  cr3 := 0x1000
  frames := ⟨fun _ => 0, 1⟩

theorem tables_refine_map_bare :
    ∃ final, exec step bareMachine [.map 0xc0000000 0x5000 3, .unmap 0xc0001000] =
        some final ∧
      ∀ vaddr, InRange vaddr → (getPaddr final vaddr, getPflags final vaddr) =
        match lastCall vaddr [.map 0xc0000000 0x5000 3, .unmap 0xc0001000] with
        | some (.map _ paddr flags) => (some paddr, some flags)
        | some (.unmap _) => (some 0, some 0)
        | none => (getPaddr bareMachine vaddr, getPflags bareMachine vaddr) := by
  have hslot : ∀ slot, slot ∈ tableSlots → bareMachine.pde slot = 0 := by
    intro slot hslot
    exact if_neg fun hlast => hslot.2 hlast.2
  have haddr : Addressable tableSlots bareMachine := by
    constructor
    · exact ⟨rfl, rfl⟩
    · intro slot htable hne
      exact absurd (hslot slot htable) hne
    · intro slot htable hne
      exact absurd (hslot slot htable) hne
    · intro slot htable other _ hne
      exact absurd (hslot slot htable) hne
  have hfresh : Fresh tableSlots bareMachine := by
    have hnext : bareMachine.nextFrame = 8 := by decide +kernel
    have hdirectory : bareMachine.directory = 1 := rfl
    refine ⟨by rw [hnext]; decide, by rw [hnext, hdirectory]; decide, ?_⟩
    intro slot htable hne
    exact absurd (hslot slot htable) hne
  apply tables_refine_map bareMachine _ haddr
  apply meets_cons_intro
  · exact ⟨⟨by decide, by decide⟩, by decide, by decide, fun _ => hfresh⟩
  · intro mapped hmapped
    apply meets_cons_intro
    · exact ⟨by decide, by decide⟩
    · intro unmapped hunmapped
      trivial

end KimisOS.Paging
