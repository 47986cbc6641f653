import KimisOS.Memory.Kfree

/-!
# What calls write

The calls that map kernel pages write the tables of the kernel half, the
kernel slots of the directory and frames that were free.  An effect says so of
two machines, with the frames that are written on purpose; effects compose,
and from one of them it follows which frames keep their contents.
-/

namespace KimisOS.Effects

open KimisOS.Frames
open KimisOS.Paging
open KimisOS.Kmalloc
open KimisOS.Kfree
open KimisOS.Fork

/-! ## Allocated frames -/

/-- A frame that `pm_alloc` has handed out: it is marked in the map, and is not
frame 0, whose address stands for none. -/
structure Allocated (m : Machine) (frame : BitVec 20) : Prop where
  ne_zero : frame ≠ 0
  used : m.frames.used frame.toNat = true

theorem Allocated.ne {m : Machine} {frame other : BitVec 20} (hframe : Allocated m frame)
    (hfree : m.frames.used other.toNat = false) : frame ≠ other := by
  rintro rfl
  rw [hframe.used] at hfree
  cases hfree

/-- The tables of the kernel half, in allocated frames.  A table for which
`pm_alloc` had no frame lies in frame 0. -/
structure KernelTables (m : Machine) : Prop where
  addressable : Addressable kernelSlots m
  directory : Allocated m m.directory
  tables : ∀ frame, IsTable m frame → frame = 0 ∨ m.frames.used frame.toNat = true

/-- `pm_alloc` has handed out the frame in between. -/
def NewlyAllocated (m next : Machine) (frame : BitVec 20) : Prop :=
  m.frames.used frame.toNat = false ∧ next.frames.used frame.toNat = true

/-- What may differ between two machines: the frames written on purpose, the
kernel half of the directory and its tables, and frames allocated in between. -/
structure Effect (written : Set (BitVec 20)) (m next : Machine) : Prop where
  directory : next.directory = m.directory
  slots : ∀ slot, slot ∉ kernelSlots → next.pde slot = m.pde slot
  tables : ∀ slot ∈ kernelSlots, m.pde slot ≠ 0 → next.pde slot = m.pde slot
  newTables : ∀ frame, IsTable next frame →
    IsTable m frame ∨ frame = 0 ∨ m.frames.used frame.toNat = false
  used : ∀ frame, m.frames.used frame = true → next.frames.used frame = true
  mem : ∀ frame, ¬ NewlyAllocated m next frame → frame ≠ m.directory →
    ¬ IsTable m frame → ¬ IsTable next frame → frame ∉ written →
    next.mem frame = m.mem frame

variable {written : Set (BitVec 20)} {m mid next : Machine}

theorem Effect.refl (written : Set (BitVec 20)) (m : Machine) : Effect written m m where
  directory := rfl
  slots _ _ := rfl
  tables _ _ _ := rfl
  newTables _ htable := .inl htable
  used _ hused := hused
  mem _ _ _ _ _ _ := rfl

theorem Effect.allocated (heffect : Effect written m next) {frame : BitVec 20}
    (hframe : Allocated m frame) : Allocated next frame :=
  ⟨hframe.ne_zero, heffect.used _ hframe.used⟩

theorem Effect.not_table (heffect : Effect written m next) {frame : BitVec 20}
    (hframe : Allocated m frame) (hnot : ¬ IsTable m frame) : ¬ IsTable next frame := by
  intro htable
  rcases heffect.newTables frame htable with hold | hzero | hfree
  · exact hnot hold
  · exact hframe.ne_zero hzero
  · exact hframe.ne hfree rfl

theorem Effect.tabled (heffect : Effect written m next) {page : ℕ}
    (hpage : KernelPage page) (htabled : Tabled m page) : Tabled next page := by
  rw [Tabled, heffect.tables _ hpage.slotOf_mem htabled]
  exact htabled

theorem Effect.isTable (heffect : Effect written m next) {frame : BitVec 20}
    (htable : IsTable m frame) : IsTable next frame := by
  obtain ⟨slot, hslot, hne, hframe⟩ := htable
  refine ⟨slot, hslot, ?_, ?_⟩
  · rwa [heffect.tables slot hslot hne]
  · rwa [heffect.tables slot hslot hne]

/-- A further effect, on frames that may be written or are newly allocated. -/
theorem Effect.extend {written' : Set (BitVec 20)} (hfirst : Effect written m mid)
    (hsecond : Effect written' mid next)
    (hwritten' : ∀ frame ∈ written', frame ∈ written ∨ NewlyAllocated m mid frame) :
    Effect written m next where
  directory := hsecond.directory.trans hfirst.directory
  slots slot hslot := (hsecond.slots slot hslot).trans (hfirst.slots slot hslot)
  tables slot hslot hne := by
    have hmid := hfirst.tables slot hslot hne
    rw [hsecond.tables slot hslot (hmid ▸ hne), hmid]
  newTables frame htable := by
    rcases hsecond.newTables frame htable with hmid | hzero | hfree
    · exact hfirst.newTables frame hmid
    · exact .inr (.inl hzero)
    · refine .inr (.inr ?_)
      by_contra hused
      rw [hfirst.used _ (by simpa using hused)] at hfree
      cases hfree
  used frame hused := hsecond.used frame (hfirst.used frame hused)
  mem frame hold hdirectory hnot hnext hwritten := by
    have hmid : ¬ IsTable mid frame := mt hsecond.isTable hnext
    have hmidOld : ¬ NewlyAllocated m mid frame := fun hnew =>
      hold ⟨hnew.1, hsecond.used _ hnew.2⟩
    have hnextOld : ¬ NewlyAllocated mid next frame := by
      rintro ⟨hfree, hused⟩
      refine hold ⟨?_, hused⟩
      by_contra hbefore
      rw [hfirst.used _ (by simpa using hbefore)] at hfree
      cases hfree
    have hother : frame ∉ written' := fun hmem =>
      (hwritten' frame hmem).elim hwritten hmidOld
    rw [hsecond.mem frame hnextOld (hfirst.directory ▸ hdirectory) hmid hnext hother]
    exact hfirst.mem frame hmidOld hdirectory hnot hmid hwritten

theorem Effect.trans (hfirst : Effect written m mid) (hsecond : Effect written mid next) :
    Effect written m next :=
  hfirst.extend hsecond fun _ hmem => .inl hmem

theorem Effect.mono {written' : Set (BitVec 20)} (heffect : Effect written m next)
    (hsubset : written ⊆ written') : Effect written' m next where
  directory := heffect.directory
  slots := heffect.slots
  tables := heffect.tables
  newTables := heffect.newTables
  used := heffect.used
  mem frame hold hdirectory hnot hnext hwritten :=
    heffect.mem frame hold hdirectory hnot hnext fun hmem => hwritten (hsubset hmem)

/-! ## Single steps -/

/-- `pm_alloc` writes no memory. -/
theorem effect_takeFrame (written : Set (BitVec 20)) (m : Machine) :
    Effect written m (m.setFrames (pmAlloc m.frames).1) where
  directory := rfl
  slots _ _ := rfl
  tables _ _ _ := rfl
  newTables _ htable := .inl htable
  used _ hused := used_pmAlloc m.frames hused
  mem _ _ _ _ _ _ := rfl

/-- A frame that is no part of the address space gets new contents. -/
theorem effect_setTable {frame : BitVec 20} (hdirectory : frame ≠ m.directory)
    (hmem : frame ∈ written) (table : BitVec 10 → BitVec 32) :
    Effect written m (m.setTable frame table) := by
  have hpde : ∀ slot, (m.setTable frame table).pde slot = m.pde slot :=
    setTable_pde hdirectory _
  constructor
  · rfl
  · intro slot _
    exact hpde slot
  · intro slot _ _
    exact hpde slot
  · intro other htable
    simp only [IsTable, hpde] at htable
    exact .inl htable
  · intro _ hused
    exact hused
  · intro other _ _ _ _ hwritten
    have hne : other ≠ frame := by
      rintro rfl
      exact hwritten hmem
    exact Function.update_of_ne hne _ _

theorem effect_setWord {frame : BitVec 20} (hdirectory : frame ≠ m.directory)
    (hmem : frame ∈ written) (index : BitVec 10) (word : BitVec 32) :
    Effect written m (m.setWord frame index word) :=
  effect_setTable hdirectory hmem _

/-- The word of a kernel page in its table. -/
theorem effect_window (haddr : Addressable kernelSlots m) {page : ℕ}
    (hpage : KernelPage page) (htabled : Tabled m page) (word : BitVec 32) :
    Effect written m (window m page word) := by
  have hpde := window_pde haddr hpage htabled word
  constructor
  · rfl
  · intro slot _
    exact hpde slot
  · intro slot _ _
    exact hpde slot
  · intro frame htable
    exact .inl ((window_isTable_iff haddr hpage htabled word frame).mp htable)
  · intro _ hused
    exact hused
  · intro frame _ _ hnot _ _
    apply window_mem
    rintro rfl
    exact hnot ⟨slotOf page, hpage.slotOf_mem, htabled, rfl⟩

theorem KernelTables.takeFrame (hm : KernelTables m) :
    KernelTables (m.setFrames (pmAlloc m.frames).1) where
  addressable := (samePages_frames m _).addressable hm.addressable
  directory := ⟨hm.directory.ne_zero, used_pmAlloc m.frames hm.directory.used⟩
  tables frame htable := (hm.tables frame htable).imp_right (used_pmAlloc m.frames)

/-! ## A new kernel table -/

/-- `pm_alloc` returns neither the directory nor a kernel table, not even when
it has no frame, as long as no table lies in frame 0. -/
theorem KernelTables.unused (hm : KernelTables m) (hnull : ¬ IsTable m 0) :
    Unused kernelSlots m ∧ ¬ IsTable m m.nextFrame := by
  have hframe : m.nextFrame ≠ m.directory ∧ ¬ IsTable m m.nextFrame := by
    by_cases hserved : (pmAlloc m.frames).2 = 0
    · have hzero : m.nextFrame = 0 := by rw [Machine.nextFrame, hserved]; rfl
      rw [hzero]
      exact ⟨hm.directory.ne_zero.symm, hnull⟩
    · have hfree := (pmAlloc_fresh hserved).1
      change m.frames.used m.nextFrame.toNat = false at hfree
      refine ⟨(hm.directory.ne hfree).symm, ?_⟩
      · intro htable
        rcases hm.tables _ htable with hzero | hused
        · exact nextFrame_ne_zero hserved hzero
        · rw [hused] at hfree
          cases hfree
  refine ⟨⟨hframe.1, ?_⟩, hframe.2⟩
  intro slot hslot hne heq
  exact hframe.2 ⟨slot, hslot, hne, heq.symm⟩

/-- The kernel tables with one more. -/
theorem KernelTables.tabled_isTable (hm : KernelTables m) (hnull : ¬ IsTable m 0)
    {slot : BitVec 10} (hslot : slot ∈ kernelSlots) (hempty : m.pde slot = 0)
    (frame : BitVec 20) :
    IsTable (m.tabled slot) frame ↔ IsTable m frame ∨ frame = m.nextFrame := by
  have hpde := tabled_pde (hm.unused hnull).1.1 slot
  constructor
  · rintro ⟨other, hother, hne, hframe⟩
    rw [hpde] at hne hframe
    by_cases hnew : other = slot
    · rw [if_pos hnew, frameOf_newEntry] at hframe
      exact .inr hframe
    · rw [if_neg hnew] at hne hframe
      exact .inl ⟨other, hother, hne, hframe⟩
  · rintro (⟨other, hother, hne, hframe⟩ | hnew)
    · have hold : other ≠ slot := by
        rintro rfl
        exact hne hempty
      refine ⟨other, hother, ?_, ?_⟩
      · rwa [hpde, if_neg hold]
      · rwa [hpde, if_neg hold]
    · refine ⟨slot, hslot, ?_, ?_⟩
      · exact tabled_ne_zero (hm.unused hnull).1.1 slot
      · rw [hpde, if_pos rfl, frameOf_newEntry, hnew]

theorem nextFrame_cases (m : Machine) :
    m.nextFrame = 0 ∨ m.frames.used m.nextFrame.toNat = false ∧
      (pmAlloc m.frames).1.used m.nextFrame.toNat = true := by
  by_cases hserved : (pmAlloc m.frames).2 = 0
  · exact .inl (by rw [Machine.nextFrame, hserved]; rfl)
  · exact .inr (pmAlloc_fresh hserved)

theorem KernelTables.tabled (hm : KernelTables m) (hnull : ¬ IsTable m 0)
    {slot : BitVec 10} (hslot : slot ∈ kernelSlots) (hempty : m.pde slot = 0) :
    KernelTables (m.tabled slot) ∧ Effect written m (m.tabled slot) := by
  obtain ⟨hunused, hnotTable⟩ := hm.unused hnull
  have hpde := tabled_pde hunused.1 slot
  have htables := hm.tabled_isTable hnull hslot hempty
  refine ⟨⟨tabled_addressable hm.addressable hempty hunused,
    ⟨hm.directory.ne_zero, used_pmAlloc m.frames hm.directory.used⟩, ?_⟩, ?_⟩
  · intro frame htable
    rcases (htables frame).mp htable with hold | rfl
    · exact (hm.tables frame hold).imp_right (used_pmAlloc m.frames)
    · exact (nextFrame_cases m).imp_right And.right
  · constructor
    · rfl
    · intro other hother
      rw [hpde, if_neg]
      rintro rfl
      exact hother hslot
    · intro other _ hne
      rw [hpde, if_neg]
      rintro rfl
      exact hne hempty
    · intro frame htable
      rcases (htables frame).mp htable with hold | rfl
      · exact .inl hold
      · exact .inr ((nextFrame_cases m).imp_right And.left)
    · intro _ hused
      exact used_pmAlloc m.frames hused
    · intro frame _ hdirectory _ hnext _
      have hnew : frame ≠ m.nextFrame := fun heq => hnext ((htables frame).mpr (.inr heq))
      funext index
      rw [tabled_mem, if_neg hnew, if_neg fun h => hdirectory h.1]

/-! ## `map` of a kernel page -/

/-- The word of one page is another one; its slot may have got a table. -/
structure Maps (m next : Machine) (page : ℕ) (word : BitVec 32) : Prop where
  tables : KernelTables next
  effect : Effect ∅ m next
  tabled : Tabled next page
  slots : ∀ slot, slot ≠ slotOf page → next.pde slot = m.pde slot
  entry : ∀ other, KernelPage other →
    pageEntry next other = if other = page then word else pageEntry m other
  frames : next.frames = m.frames ∧ Tabled m page ∨
    next.frames = (pmAlloc m.frames).1 ∧ ¬ Tabled m page
  null : ¬ IsTable m 0 → Spares m page → ¬ IsTable next 0

variable {page : ℕ}

theorem KernelTables.window (hm : KernelTables m) (hpage : KernelPage page)
    (htabled : Tabled m page) (word : BitVec 32) :
    Maps m (Kmalloc.window m page word) page word where
  tables :=
    ⟨window_addressable hm.addressable hpage htabled word,
      ⟨hm.directory.ne_zero, hm.directory.used⟩,
      fun frame htable => hm.tables frame
        ((window_isTable_iff hm.addressable hpage htabled word frame).mp htable)⟩
  effect := effect_window hm.addressable hpage htabled word
  tabled := by
    rw [Tabled, window_pde hm.addressable hpage htabled]
    exact htabled
  slots slot _ := window_pde hm.addressable hpage htabled word slot
  entry other hother := window_entry hm.addressable hpage htabled word hother
  frames := .inl ⟨rfl, htabled⟩
  null hnull _ := by
    rwa [window_isTable_iff hm.addressable hpage htabled word]

/-- `map` of a kernel page, whose slot has a table or gets one. -/
theorem KernelTables.map (hm : KernelTables m) (hpage : KernelPage page)
    (hroom : Tabled m page ∨ ¬ IsTable m 0) (paddr flags : BitVec 32) :
    ∃ next, Paging.map m (pageAt page) paddr flags = some next ∧
      Maps m next page (paddr ||| flags) := by
  by_cases htabled : Tabled m page
  · exact ⟨_, map_page hm.addressable hpage htabled paddr flags,
      hm.window hpage htabled _⟩
  · have hnull := hroom.resolve_left htabled
    have hempty : m.pde (slotOf page) = 0 := not_not.mp htabled
    obtain ⟨hunused, -⟩ := hm.unused hnull
    have hslot := hpage.slotOf_mem
    obtain ⟨htables, heffect⟩ : KernelTables (m.tabled (slotOf page)) ∧
        Effect ∅ m (m.tabled (slotOf page)) := hm.tabled hnull hslot hempty
    have hrec := hm.addressable.recursive
    have hnew : Tabled (m.tabled (slotOf page)) page := by
      exact tabled_ne_zero hunused.1 _
    have hmap : Paging.map m (pageAt page) paddr flags =
        Paging.map (m.tabled (slotOf page)) (pageAt page) paddr flags := by
      simp only [Paging.map]
      rw [show pdIndex (pageAt page) = slotOf page from rfl,
        newTable_of_eq hrec hempty hunused.1,
        newTable_of_ne htables.addressable.recursive hnew]
    have hmaps := htables.window hpage hnew (paddr ||| flags)
    refine ⟨_, hmap.trans (map_page htables.addressable hpage hnew paddr flags), ?_⟩
    constructor
    · exact hmaps.tables
    · exact heffect.trans hmaps.effect
    · exact hmaps.tabled
    · intro slot hslot
      rw [hmaps.slots slot hslot, tabled_pde hunused.1, if_neg hslot]
    · intro other hother
      rw [hmaps.entry other hother]
      have hold := tabled_entry hm.addressable hempty hunused hother.slotOf_mem
        (indexOf other)
      rw [show pageEntry (m.tabled (slotOf page)) other = pageEntry m other from hold]
    · exact .inr ⟨rfl, htabled⟩
    · intro _ hspares
      have hserved := hspares.resolve_left htabled
      rw [window_isTable_iff htables.addressable hpage hnew,
        hm.tabled_isTable hnull hslot hempty, not_or]
      exact ⟨hnull, (nextFrame_ne_zero hserved).symm⟩

/-! ## Frames that keep their contents -/

/-- An allocated frame that is neither the directory nor a kernel table. -/
structure Plain (m : Machine) (frame : BitVec 20) : Prop where
  allocated : Allocated m frame
  notDirectory : frame ≠ m.directory
  notTable : ¬ IsTable m frame

theorem Effect.plain (heffect : Effect written m next) {frame : BitVec 20}
    (hframe : Plain m frame) : Plain next frame where
  allocated := heffect.allocated hframe.allocated
  notDirectory := by
    rw [heffect.directory]
    exact hframe.notDirectory
  notTable := heffect.not_table hframe.allocated hframe.notTable

theorem Plain.old {frame : BitVec 20} (hframe : Plain m frame) :
    ¬ NewlyAllocated m next frame := fun hnew => hframe.allocated.ne hnew.1 rfl

theorem Effect.keeps (heffect : Effect written m next) {frame : BitVec 20}
    (hframe : Plain m frame) (hwritten : frame ∉ written) :
    next.mem frame = m.mem frame :=
  heffect.mem frame hframe.old hframe.notDirectory hframe.notTable
    (heffect.not_table hframe.allocated hframe.notTable) hwritten

/-- The contents of a plain frame are seen by no walk of a kernel page. -/
theorem KernelTables.setTable (hm : KernelTables m) {frame : BitVec 20}
    (hframe : Plain m frame) (table : BitVec 10 → BitVec 32) :
    KernelTables (m.setTable frame table) ∧ SamePages m (m.setTable frame table) := by
  have hpde : ∀ slot, (m.setTable frame table).pde slot = m.pde slot :=
    setTable_pde hframe.notDirectory _
  have hsame : SamePages m (m.setTable frame table) := by
    refine ⟨rfl, hpde 1023, fun slot _ => hpde slot, ?_⟩
    intro page hpage
    simp only [pageEntry, Machine.entry, hpde]
    by_cases hempty : m.pde (slotOf page) = 0
    · rw [if_pos hempty, if_pos hempty]
    · have hne : frameOf (m.pde (slotOf page)) ≠ frame := by
        rintro rfl
        exact hframe.notTable ⟨slotOf page, hpage.slotOf_mem, hempty, rfl⟩
      rw [if_neg hempty, if_neg hempty]
      exact congrFun (Function.update_of_ne hne table m.mem) _
  refine ⟨⟨hsame.addressable hm.addressable,
    ⟨hm.directory.ne_zero, hm.directory.used⟩, ?_⟩, hsame⟩
  intro other htable
  exact hm.tables other ((hsame.isTable_iff other).mp htable)

theorem KernelTables.setWord (hm : KernelTables m) {frame : BitVec 20}
    (hframe : Plain m frame) (index : BitVec 10) (word : BitVec 32) :
    KernelTables (m.setWord frame index word) ∧
      SamePages m (m.setWord frame index word) :=
  hm.setTable hframe _

/-- The frame that `pm_alloc` has just returned. -/
theorem KernelTables.plain_takeFrame (hm : KernelTables m)
    (hserved : (pmAlloc m.frames).2 ≠ 0) :
    m.frames.used m.nextFrame.toNat = false ∧
      Plain (m.setFrames (pmAlloc m.frames).1) m.nextFrame := by
  obtain ⟨hfree, hused⟩ := pmAlloc_fresh hserved
  change m.frames.used m.nextFrame.toNat = false at hfree
  refine ⟨hfree, ⟨nextFrame_ne_zero hserved, hused⟩, ?_, ?_⟩
  · exact (hm.directory.ne hfree).symm
  · intro htable
    rcases hm.tables _ htable with hzero | hold
    · exact nextFrame_ne_zero hserved hzero
    · rw [hfree] at hold
      cases hold

/-- `kmalloc_page_paddr` for one page. -/
theorem KernelTables.kmallocPagePaddr (hm : KernelTables m)
    (hfit : FirstFit (Free m) 1 page) (hroom : Tabled m page ∨ ¬ IsTable m 0)
    (paddr : BitVec 32) :
    ∃ next, Kmalloc.kmallocPagePaddr m paddr 1 = some (next, pageAt page) ∧
      Maps m next page (paddr ||| linkFlags 0 1) := by
  have hpage := hfit.kernelPage
  have hzero : paddr + BitVec.ofNat 32 0 * 4096 = paddr := by simp
  obtain ⟨next, hmap, hmaps⟩ := hm.map hpage hroom paddr (linkFlags 0 1)
  refine ⟨next, ?_, hmaps⟩
  simp only [Kmalloc.kmallocPagePaddr, searchPages_eq hm.addressable hfit,
    Kmalloc.mapWindow, Option.bind_eq_bind, Option.bind_some, Nat.add_zero, hzero, hmap]

/-- The page of a slot outside the kernel half whose table is a plain frame. -/
theorem Effect.entry (heffect : Effect written m next) {slot : BitVec 10}
    (hslot : slot ∉ kernelSlots)
    (htable : m.pde slot ≠ 0 → Plain m (frameOf (m.pde slot)) ∧
      frameOf (m.pde slot) ∉ written) (index : BitVec 10) :
    next.entry slot index = m.entry slot index := by
  simp only [Machine.entry, heffect.slots slot hslot]
  by_cases hempty : m.pde slot = 0
  · rw [if_pos hempty, if_pos hempty]
  · obtain ⟨hplain, hwritten⟩ := htable hempty
    rw [if_neg hempty, if_neg hempty, heffect.keeps hplain hwritten]

end KimisOS.Effects
