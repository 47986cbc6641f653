import KimisOS.Memory.FrameWindow

/-!
# `mapdup_full` makes a deep copy

The copy writes the new directory, tables and pages in fresh frames, through
three pages of the kernel half: the caller's, one for the table and one for the
page.  The last two are mapped and unmapped again for every table and page, and
the first time that may take a page table of the kernel half itself.
-/

namespace KimisOS.DeepCopy

open KimisOS.Frames
open KimisOS.Paging
open KimisOS.Kmalloc
open KimisOS.Kfree
open KimisOS.Fork
open KimisOS.Effects
open KimisOS.PageBlocks
open KimisOS.FrameWindow

/-! ## What is copied -/

/-- The slots of the user pages. -/
def userSlots : Set (BitVec 10) := {slot | slot ≠ 0 ∧ slot.toNat < 768}

/-- The word of a page in the tables of a directory, 0 without a table. -/
def entryIn (m : Machine) (directory : BitVec 20) (slot index : BitVec 10) : BitVec 32 :=
  if present (m.mem directory slot) then m.mem (frameOf (m.mem directory slot)) index else 0

/-- The address space that `mapdup_full` finds, and the page through which it
writes the new directory: every frame in use is allocated, no user page lies in
a page table, and there are two pages left to map. -/
structure Copyable (m : Machine) (pd : ℕ) (newPd : BitVec 20) : Prop where
  space : AddressSpace m
  shows : Shows m pd newPd
  notTable : ∀ slot ∈ userSlots, m.pde slot ≠ 0 → frameOf (m.pde slot) ≠ newPd
  pages : ∀ slot ∈ userSlots, ∀ index, present (m.entry slot index) = true →
    Plain m (frameOf (m.entry slot index)) ∧ frameOf (m.entry slot index) ≠ newPd
  room : ∃ page other, KernelPage page ∧ KernelPage other ∧ page ≠ other ∧
    Free m page ∧ Free m other

/-- Every user page has a copy of its own, with the same flags and the same
contents, in a frame that was free; the kernel half is shared, and the current
address space is as it was. -/
structure Copied (m next : Machine) (newPd : BitVec 20) : Prop where
  present_iff : ∀ slot ∈ userSlots, ∀ index,
    present (entryIn next newPd slot index) = present (entryIn m m.directory slot index)
  flags : ∀ slot ∈ userSlots, ∀ index,
    present (entryIn m m.directory slot index) = true →
      entryIn next newPd slot index &&& 0xfff =
          entryIn m m.directory slot index &&& 0xfff ∧
        next.mem newPd slot &&& 0xfff = m.pde slot &&& 0xfff
  fresh : ∀ slot ∈ userSlots, ∀ index,
    present (entryIn m m.directory slot index) = true →
      m.frames.used (frameOf (entryIn next newPd slot index)).toNat = false
  distinct : ∀ slot ∈ userSlots, ∀ index, ∀ slot' ∈ userSlots, ∀ index',
    present (entryIn m m.directory slot index) = true →
      present (entryIn m m.directory slot' index') = true →
        frameOf (entryIn next newPd slot index) =
          frameOf (entryIn next newPd slot' index') → slot = slot' ∧ index = index'
  contents : ∀ slot ∈ userSlots, ∀ index,
    present (entryIn m m.directory slot index) = true →
      next.mem (frameOf (entryIn next newPd slot index)) =
        m.mem (frameOf (entryIn m m.directory slot index))
  kernel : ∀ slot : BitVec 10, slot ∉ userSlots → slot ≠ 1023 →
    next.mem newPd slot = next.pde slot
  recursive : present (next.mem newPd 1023) = true ∧ frameOf (next.mem newPd 1023) = newPd
  directory : next.directory = m.directory
  user : ∀ slot ∈ userSlots, next.pde slot = m.pde slot ∧
    ∀ index, next.entry slot index = m.entry slot index
  userFrames : ∀ slot ∈ userSlots, ∀ index, present (m.entry slot index) = true →
    next.mem (frameOf (m.entry slot index)) = m.mem (frameOf (m.entry slot index))

theorem not_kernelSlot {slot : BitVec 10} (hslot : slot ∈ userSlots) :
    slot ∉ kernelSlots := by
  intro hkernel
  have hlow := hkernel.1
  have hhigh := hslot.2
  omega

theorem userSlots_subset : userSlots ⊆ lowSlots := by
  rintro slot hslot rfl
  exact absurd hslot.2 (by decide)

/-! ## The two pages -/

/-- One of the pages the copy is made through: the first that is free, and the
next one. -/
def Spot (m : Machine) (page : ℕ) : Prop :=
  FirstFit (Free m) 1 page ∨
    ∃ first, FirstFit (Free m) 1 first ∧
      FirstFit (fun other => Free m other ∧ other ≠ first) 1 page

variable {m : Machine}

theorem Spot.kernelPage {page : ℕ} (hspot : Spot m page) : KernelPage page := by
  rcases hspot with hfirst | ⟨_, -, hsecond⟩
  · exact hfirst.kernelPage
  · exact hsecond.kernelPage

/-- Where the first free page has no table, its whole slot is free, and the next
page is in it too. -/
theorem Spot.slotOf_eq {first page : ℕ} (hfit : FirstFit (Free m) 1 first)
    (huntabled : ¬ Tabled m first) (hspot : Spot m page) : slotOf page = slotOf first := by
  rcases hspot with hsame | ⟨first', hfit', hsecond⟩
  · rw [hsame.unique hfit]
  · obtain rfl := hfit'.unique hfit
    have hfirst := hfit.kernelPage
    obtain ⟨hlow, hhigh⟩ := id hfirst
    have hslot : ∀ other, KernelPage other → other / 1024 = first' / 1024 →
        slotOf other = slotOf first' := by
      intro other hother heq
      apply BitVec.eq_of_toNat_eq
      rw [hother.slotOf_toNat, hfirst.slotOf_toNat, heq]
    have hfree : ∀ other, KernelPage other → other / 1024 = first' / 1024 →
        Free m other := by
      intro other hother heq
      apply free_of_untabled
      rw [Tabled, hslot other hother heq]
      exact huntabled
    -- the first page is the first one of its slot
    have hstart : first' % 1024 = 0 := by
      have hbegin : KernelPage (first' / 1024 * 1024) := ⟨by omega, by omega⟩
      have hle := hfit.le_of_free hbegin (hfree _ hbegin (by omega))
      omega
    have hnext : KernelPage (first' + 1) := ⟨by omega, by omega⟩
    have hpage := hsecond.kernelPage
    obtain ⟨hpageFree, hne⟩ := hsecond.free
    have hafter : first' ≤ page := hfit.le_of_free hpage hpageFree
    have hbefore : page ≤ first' + 1 :=
      hsecond.le_of_free hnext ⟨hfree _ hnext (by omega), by omega⟩
    exact hslot page hpage (by omega)

/-! ## Frames that are taken -/

/-- `pm_alloc` was called at most this many times in between. -/
def Takes (count : ℕ) (m next : Machine) : Prop :=
  ∀ more, Succeeds m.frames (more + count) → Succeeds next.frames more

variable {mid next : Machine} {count : ℕ}

theorem Takes.of_frames (hsame : next.frames = m.frames) : Takes 0 m next := by
  intro more hserved
  rw [hsame]
  exact hserved

theorem Takes.of_pmAlloc (htaken : next.frames = (pmAlloc m.frames).1) :
    Takes 1 m next := by
  intro more hserved
  rw [htaken]
  exact hserved.2

theorem Takes.mono {count' : ℕ} (htakes : Takes count m next) (hle : count ≤ count') :
    Takes count' m next :=
  fun more hserved => htakes more (hserved.mono (by omega))

theorem Takes.trans {count' : ℕ} (hfirst : Takes count m mid)
    (hsecond : Takes count' mid next) : Takes (count + count') m next := by
  intro more hserved
  apply hsecond
  apply hfirst
  exact hserved.mono (by omega)

/-! ## A copy in progress -/

/-- The machine while pages are held: it differs from the first one by the
kernel half, the new directory and frames that were free, and the held pages
are the ones that are mapped since.  As long as there is no kernel table in
frame 0, a page without a table can get one. -/
structure Working (start : Machine) (newPd : BitVec 20) (held : List (ℕ × BitVec 32))
    (m : Machine) : Prop where
  tables : KernelTables m
  effect : Effect {newPd} start m
  free : ∀ page, KernelPage page → (Free m page ↔ Untaken start held page)
  kept : ∀ page, KernelPage page → ¬ Free start page →
    pageEntry m page = pageEntry start page
  window : ∀ window ∈ held, KernelPage window.1 ∧ Free start window.1
  entry : ∀ window ∈ held, pageEntry m window.1 = window.2
  present : ∀ window ∈ held, present window.2 = true
  room : ¬ IsTable m 0 ∨ ∀ page, Spot start page → Tabled m page
  newTables : ∀ slot ∈ kernelSlots, start.pde slot = 0 → m.pde slot ≠ 0 →
    ∃ page, Spot start page ∧ slotOf page = slot

variable {start : Machine} {newPd : BitVec 20} {held : List (ℕ × BitVec 32)}

theorem Copyable.working {pd : ℕ} (hcopy : Copyable m pd newPd) : Working m newPd [] m where
  tables := hcopy.space.kernelTables
  effect := .refl _ m
  free page _ := ⟨fun hfree => ⟨hfree, by simp⟩, fun huntaken => huntaken.1⟩
  kept _ _ _ := rfl
  window := by simp
  entry := by simp
  present := by simp
  room := .inl hcopy.space.not_null
  newTables _ _ hempty hne := absurd hempty hne

theorem Working.takeFrame (hwork : Working start newPd held m) :
    Working start newPd held (m.setFrames (pmAlloc m.frames).1) where
  tables := hwork.tables.takeFrame
  effect := hwork.effect.trans (effect_takeFrame _ m)
  free := hwork.free
  kept := hwork.kept
  window := hwork.window
  entry := hwork.entry
  present := hwork.present
  room := hwork.room
  newTables := hwork.newTables

/-- New contents for the new directory, or for a frame that was free. -/
theorem Working.setTable (hwork : Working start newPd held m) {frame : BitVec 20}
    (hframe : Plain m frame) (hwritten : frame = newPd ∨ ¬ Allocated start frame)
    (table : BitVec 10 → BitVec 32) :
    Working start newPd held (m.setTable frame table) := by
  obtain ⟨htables, hsame⟩ := hwork.tables.setTable hframe table
  have heffect : Effect {frame} m (m.setTable frame table) :=
    effect_setTable hframe.notDirectory (Set.mem_singleton _) table
  have hpde : ∀ slot, (m.setTable frame table).pde slot = m.pde slot :=
    setTable_pde hframe.notDirectory table
  constructor
  · exact htables
  · apply hwork.effect.extend heffect
    rintro other rfl
    refine hwritten.imp_right fun hnew => ⟨?_, hframe.allocated.used⟩
    by_contra hused
    exact hnew ⟨hframe.allocated.ne_zero, by simpa using hused⟩
  · intro page hpage
    rw [hsame.free_iff hpage, hwork.free page hpage]
  · intro page hpage hused
    rw [hsame.entry page hpage, hwork.kept page hpage hused]
  · exact hwork.window
  · intro window hheld
    rw [hsame.entry _ (hwork.window window hheld).1, hwork.entry window hheld]
  · exact hwork.present
  · rw [hsame.isTable_iff]
    simpa only [Tabled, hpde] using hwork.room
  · simpa only [hpde] using hwork.newTables

theorem Working.setWord (hwork : Working start newPd held m) {frame : BitVec 20}
    (hframe : Plain m frame) (hwritten : frame = newPd ∨ ¬ Allocated start frame)
    (index : BitVec 10) (word : BitVec 32) :
    Working start newPd held (m.setWord frame index word) :=
  hwork.setTable hframe hwritten _

/-- A further page is mapped. -/
theorem Working.push (hwork : Working start newPd held m) {page : ℕ}
    (hfit : FirstFit (Untaken start held) 1 page)
    (hspot : Spot start page)
    (hothers : ¬ Tabled m page → ∀ other, Spot start other →
      Tabled m other ∨ slotOf other = slotOf page) (paddr : BitVec 32) :
    ∃ next, Kmalloc.kmallocPagePaddr m paddr 1 = some (next, pageAt page) ∧
      Working start newPd ((page, paddr ||| linkFlags 0 1) :: held) next ∧
      Effect ∅ m next ∧ Takes 1 m next := by
  have hpage := hfit.kernelPage
  obtain ⟨hfree, hfresh⟩ : Untaken start held page := hfit.free
  have hroom : Tabled m page ∨ ¬ IsTable m 0 :=
    hwork.room.symm.imp_left fun hall => hall page hspot
  obtain ⟨next, hcall, hmaps⟩ :=
    hwork.tables.kmallocPagePaddr (hfit.congr hwork.free) hroom paddr
  have htakes : Takes 1 m next := by
    rcases hmaps.frames with ⟨hsame, -⟩ | ⟨htaken, -⟩
    · exact (Takes.of_frames hsame).mono (Nat.zero_le 1)
    · exact .of_pmAlloc htaken
  refine ⟨next, hcall, ?_, hmaps.effect, htakes⟩
  have hpresent := present_linkFlags paddr 0 1
  have hentry : pageEntry next page = paddr ||| linkFlags 0 1 := by
    rw [hmaps.entry page hpage, if_pos rfl]
  constructor
  · exact hmaps.tables
  · exact hwork.effect.trans (hmaps.effect.mono (Set.empty_subset _))
  · intro other hother
    by_cases hsame : other = page
    · subst hsame
      refine iff_of_false (not_free_of_present hentry hpresent) ?_
      intro huntaken
      exact huntaken.2 _ List.mem_cons_self rfl
    · have hold : Free next other ↔ Free m other := by
        rw [Free, Free, hmaps.entry other hother, if_neg hsame]
      rw [hold, hwork.free other hother, Untaken, Untaken, List.forall_mem_cons]
      exact ⟨fun h => ⟨h.1, Ne.symm hsame, h.2⟩, fun h => ⟨h.1, h.2.2⟩⟩
  · intro other hother hused
    have hne : other ≠ page := by
      rintro rfl
      exact hused hfree
    rw [hmaps.entry other hother, if_neg hne, hwork.kept other hother hused]
  · intro window hheld
    rcases List.mem_cons.mp hheld with rfl | hold
    · exact ⟨hpage, hfree⟩
    · exact hwork.window window hold
  · intro window hheld
    rcases List.mem_cons.mp hheld with rfl | hold
    · exact hentry
    · rw [hmaps.entry _ (hwork.window window hold).1, if_neg (hfresh window hold),
        hwork.entry window hold]
  · intro window hheld
    rcases List.mem_cons.mp hheld with rfl | hold
    · exact hpresent
    · exact hwork.present window hold
  · have hkeeps : ∀ other, KernelPage other → Tabled m other → Tabled next other :=
      fun other hother => hmaps.effect.tabled hother
    by_cases hnull : IsTable m 0
    · refine .inr fun other hother => ?_
      have hroom := hwork.room.resolve_left (not_not.mpr hnull)
      exact hkeeps other hother.kernelPage (hroom other hother)
    · by_cases hspares : Spares m page
      · exact .inl (hmaps.null hnull hspares)
      · rw [Spares, not_or] at hspares
        refine .inr fun other hother => ?_
        rcases hothers hspares.1 other hother with htabled | hslot
        · exact hkeeps other hother.kernelPage htabled
        · rw [Tabled, hslot]
          exact hmaps.tabled
  · intro slot hslot hempty hne
    by_cases hsame : slot = slotOf page
    · exact ⟨page, hspot, hsame.symm⟩
    · rw [hmaps.slots slot hsame] at hne
      exact hwork.newTables slot hslot hempty hne

/-- The page mapped last is unmapped. -/
theorem Working.pop {page : ℕ} {word : BitVec 32}
    (hwork : Working start newPd ((page, word) :: held) m)
    (hfresh : ∀ window ∈ held, window.1 ≠ page) :
    ∃ next, unmap m (pageAt page) = some next ∧ Working start newPd held next ∧
      Effect ∅ m next ∧ next.frames = m.frames := by
  have hself : (page, word) ∈ (page, word) :: held := List.mem_cons_self
  obtain ⟨hpage, hfree⟩ : KernelPage page ∧ Free start page := hwork.window (page, word) hself
  have hentry : pageEntry m page = word := hwork.entry (page, word) hself
  have hpresent : Paging.present word = true := hwork.present (page, word) hself
  have haddr := hwork.tables.addressable
  have htabled : Tabled m page := tabled_of_present hentry hpresent
  have hmaps := hwork.tables.window hpage htabled 0
  have hunmap := unmap_page haddr hpage htabled
  have hframes := window_frames m page 0
  generalize Kmalloc.window m page 0 = next at hmaps hunmap hframes
  refine ⟨next, hunmap, ?_, hmaps.effect, hframes⟩
  have hzero : (0 : BitVec 32) &&& 0xfff = 0 := by decide
  constructor
  · exact hmaps.tables
  · exact hwork.effect.trans (hmaps.effect.mono (Set.empty_subset _))
  · intro other hother
    rw [Free, hmaps.entry other hother]
    by_cases hsame : other = page
    · subst hsame
      rw [if_pos rfl]
      exact iff_of_true hzero ⟨hfree, hfresh⟩
    · have hold := hwork.free other hother
      rw [Free, Untaken, List.forall_mem_cons] at hold
      rw [if_neg hsame, hold]
      exact ⟨fun h => ⟨h.1, h.2.2⟩, fun h => ⟨h.1, Ne.symm hsame, h.2⟩⟩
  · intro other hother hused
    have hne : other ≠ page := by
      rintro rfl
      exact hused hfree
    rw [hmaps.entry other hother, if_neg hne, hwork.kept other hother hused]
  · intro window hheld
    exact hwork.window window (List.mem_cons_of_mem _ hheld)
  · intro window hheld
    have hmem := List.mem_cons_of_mem (page, word) hheld
    rw [hmaps.entry _ (hwork.window window hmem).1, if_neg (hfresh window hheld),
      hwork.entry window hmem]
  · intro window hheld
    exact hwork.present window (List.mem_cons_of_mem _ hheld)
  · refine hwork.room.imp (fun hnull => hmaps.null hnull (.inl htabled)) ?_
    intro hall other hspot
    exact hmaps.effect.tabled hspot.kernelPage (hall other hspot)
  · intro slot hslot hempty hne
    by_cases hsame : slot = slotOf page
    · exact hwork.newTables slot hslot hempty (hsame ▸ htabled)
    · rw [hmaps.slots slot hsame] at hne
      exact hwork.newTables slot hslot hempty hne

/-! ## What is read, and where it is written -/

theorem Working.shows (hwork : Working start newPd held m) {window : ℕ × BitVec 32}
    (hheld : window ∈ held) (hplain : Plain m (frameOf window.2)) :
    Shows m window.1 (frameOf window.2) := by
  have hentry := hwork.entry window hheld
  refine ⟨hwork.tables, (hwork.window window hheld).1, ?_, ?_, hplain⟩
  · rw [hentry]
    exact hwork.present window hheld
  · rw [hentry]

variable {pd : ℕ}

theorem Working.showsPd (hwork : Working start newPd held m)
    (hcopy : Copyable start pd newPd) : Shows m pd newPd := by
  have hpd := hcopy.shows
  have hentry := hwork.kept pd hpd.kernelPage (not_free_of_present rfl hpd.present)
  refine ⟨hwork.tables, hpd.kernelPage, ?_, ?_, hwork.effect.plain hpd.plain⟩
  · rw [hentry]
    exact hpd.present
  · rw [hentry]
    exact hpd.shown

/-- The user half of the current address space stays as it was. -/
theorem Working.user (hwork : Working start newPd held m)
    (hcopy : Copyable start pd newPd) {slot : BitVec 10} (hslot : slot ∈ userSlots) :
    m.pde slot = start.pde slot ∧ ∀ index, m.entry slot index = start.entry slot index := by
  have hkernel := not_kernelSlot hslot
  refine ⟨hwork.effect.slots slot hkernel, hwork.effect.entry hkernel ?_⟩
  intro hne
  exact ⟨hcopy.space.plain (userSlots_subset hslot) hkernel hne,
    hcopy.notTable slot hslot hne⟩

theorem Working.userFrame (hwork : Working start newPd held m)
    (hcopy : Copyable start pd newPd) {slot index : BitVec 10} (hslot : slot ∈ userSlots)
    (hpresent : Paging.present (start.entry slot index) = true) :
    m.mem (frameOf (start.entry slot index)) =
      start.mem (frameOf (start.entry slot index)) := by
  obtain ⟨hplain, hne⟩ := hcopy.pages slot hslot index hpresent
  exact hwork.effect.keeps hplain hne

/-- A frame that is free now was not allocated at first. -/
theorem Working.not_allocated (hwork : Working start newPd held m) {frame : BitVec 20}
    (hfree : m.frames.used frame.toNat = false) : ¬ Allocated start frame :=
  fun hallocated => (hwork.effect.allocated hallocated).ne hfree rfl

/-- `(void *)(i << 22 | j << 12)`. -/
def userAddress (i j : ℕ) : BitVec 32 :=
  BitVec.ofNat 32 i <<< 22 ||| BitVec.ofNat 32 j <<< 12

theorem userAddress_toNat {i j : ℕ} (hi : i < 768) (hj : j < 1024) :
    (userAddress i j).toNat = i * 2 ^ 22 + j * 2 ^ 12 := by
  have hslot : (BitVec.ofNat 32 i <<< 22).toNat = i <<< 22 := by
    rw [BitVec.toNat_shiftLeft, BitVec.toNat_ofNat, Nat.shiftLeft_eq, Nat.shiftLeft_eq]
    omega
  have hpage : (BitVec.ofNat 32 j <<< 12).toNat = j * 2 ^ 12 := by
    rw [BitVec.toNat_shiftLeft, BitVec.toNat_ofNat, Nat.shiftLeft_eq]
    omega
  rw [userAddress, BitVec.toNat_or, hslot, hpage,
    ← Nat.shiftLeft_add_eq_or_of_lt (show j * 2 ^ 12 < 2 ^ 22 by omega) i, Nat.shiftLeft_eq]

theorem walk_userAddress {i j index : ℕ} (hi : i < 768) (hj : j < 1024)
    (hindex : index < 1024) :
    pdIndex (wordAt (userAddress i j) index) = BitVec.ofNat 10 i ∧
      ptIndex (wordAt (userAddress i j) index) = BitVec.ofNat 10 j ∧
      wordIndex (wordAt (userAddress i j) index) = BitVec.ofNat 10 index := by
  have hvaddr : (wordAt (userAddress i j) index).toNat =
      i * 2 ^ 22 + j * 2 ^ 12 + index * 4 := by
    rw [wordAt, BitVec.toNat_add, userAddress_toNat hi hj, BitVec.toNat_ofNat]
    omega
  refine ⟨?_, ?_, ?_⟩
  · apply BitVec.eq_of_toNat_eq
    rw [pdIndex, BitVec.extractLsb'_toNat, hvaddr, Nat.shiftRight_eq_div_pow,
      BitVec.toNat_ofNat]
    omega
  · apply BitVec.eq_of_toNat_eq
    rw [ptIndex, BitVec.extractLsb'_toNat, hvaddr, Nat.shiftRight_eq_div_pow,
      BitVec.toNat_ofNat]
    omega
  · apply BitVec.eq_of_toNat_eq
    rw [wordIndex, BitVec.extractLsb'_toNat, hvaddr, Nat.shiftRight_eq_div_pow,
      BitVec.toNat_ofNat]
    omega

theorem entry_of_present {slot index : BitVec 10}
    (hpresent : Paging.present (m.entry slot index) = true) :
    m.pde slot ≠ 0 ∧ m.entry slot index = m.mem (frameOf (m.pde slot)) index := by
  by_cases hempty : m.pde slot = 0
  · exact absurd (if_pos hempty) (ne_zero_of_present hpresent)
  · exact ⟨hempty, if_neg hempty⟩

/-- A user page is read through its own address. -/
theorem load_userAddress {i j index : ℕ} (hi : i < 768) (hj : j < 1024)
    (hindex : index < 1024)
    (htable : Paging.present (m.pde (BitVec.ofNat 10 i)) = true)
    (hpresent : Paging.present (m.entry (BitVec.ofNat 10 i) (BitVec.ofNat 10 j)) = true) :
    m.load (wordAt (userAddress i j) index) =
      some (m.mem (frameOf (m.entry (BitVec.ofNat 10 i) (BitVec.ofNat 10 j)))
        (BitVec.ofNat 10 index)) := by
  obtain ⟨hslot, hpage, hword⟩ := walk_userAddress hi hj hindex
  have hentry := (entry_of_present hpresent).2
  rw [hentry] at hpresent ⊢
  simp only [Machine.load, Machine.walk, hslot, hpage, hword, htable, hpresent, if_true]

/-! ## Fresh frames -/

/-- A word of a frame names a frame that was free. -/
structure NamesFrame (m named : Machine) (frame : BitVec 20) (index : ℕ)
    (flags entry : BitVec 32) : Prop where
  effect : Effect {frame} m named
  mem : named.mem frame = Function.update (m.mem frame) (BitVec.ofNat 10 index) entry
  flags : entry &&& 0xfff = flags
  free : m.frames.used (frameOf entry).toNat = false
  plain : Plain named (frameOf entry)

theorem pmAlloc_aligned (frames : FrameMap) :
    BitVec.ofNat 32 (pmAlloc frames).2 &&& 0xfff = 0 := by
  rw [aligned_iff, BitVec.toNat_ofNat]
  rcases pmAlloc_cases frames with hnone | ⟨taken, haddress, -, -, -⟩
  · rw [hnone]
    rfl
  · rw [haddress]
    omega

/-- A fresh frame is named in a word behind a window, and read back.  Without
one the kernel panics. -/
theorem Working.nameFrame (hwork : Working start newPd held m) {page : ℕ}
    {frame : BitVec 20} (hshows : Shows m page frame)
    (hwritten : frame = newPd ∨ ¬ Allocated start frame) {index : ℕ}
    (hindex : index < 1024) {flags : BitVec 32} (hflags : flags < 0x1000) :
    ∃ named, (m.setFrames (pmAlloc m.frames).1).store (wordAt (pageAt page) index)
          (BitVec.ofNat 32 (pmAlloc m.frames).2 ||| flags) = some named ∧
      named.load (wordAt (pageAt page) index) =
        some (BitVec.ofNat 32 (pmAlloc m.frames).2 ||| flags) ∧
      Working start newPd held named ∧ Takes 1 m named ∧
      (BitVec.ofNat 32 (pmAlloc m.frames).2 ||| flags < 4096 ∧
          (pmAlloc m.frames).2 = 0 ∨
        ¬ BitVec.ofNat 32 (pmAlloc m.frames).2 ||| flags < 4096 ∧
          NamesFrame m named frame index flags
            (BitVec.ofNat 32 (pmAlloc m.frames).2 ||| flags)) := by
  set entry := BitVec.ofNat 32 (pmAlloc m.frames).2 ||| flags with hentry
  have htake : Effect {frame} m (m.setFrames (pmAlloc m.frames).1) := effect_takeFrame _ m
  have htaken : Shows (m.setFrames (pmAlloc m.frames).1) page frame :=
    ⟨hshows.tables.takeFrame, hshows.kernelPage, hshows.present, hshows.shown,
      htake.plain hshows.plain⟩
  have hword : Effect {frame} (m.setFrames (pmAlloc m.frames).1)
      ((m.setFrames (pmAlloc m.frames).1).setWord frame (BitVec.ofNat 10 index) entry) :=
    effect_setWord htaken.plain.notDirectory (Set.mem_singleton _) _ _
  refine ⟨_, htaken.store hindex entry, ?_,
    hwork.takeFrame.setWord htaken.plain hwritten _ _, .of_pmAlloc rfl, ?_⟩
  · have hnamed := htaken.setTable htaken.plain
      (Function.update (m.mem frame) (BitVec.ofNat 10 index) entry)
    have hload := hnamed.load hindex
    rw [setTable_mem_self, Function.update_self] at hload
    exact hload
  · by_cases hserved : (pmAlloc m.frames).2 = 0
    · refine .inl ⟨?_, hserved⟩
      rw [hentry, hserved]
      simpa using hflags
    obtain ⟨hfree, hplain⟩ := hwork.tables.plain_takeFrame hserved
    have hframe : frameOf entry = m.nextFrame := frameOf_or_flags _ hflags
    refine .inr ⟨?_, ?_⟩
    · intro hsmall
      apply nextFrame_ne_zero hserved
      rw [← hframe]
      exact frameOf_of_lt hsmall
    constructor
    · exact htake.trans hword
    · exact setTable_mem_self _ _ _
    · exact flags_of_entry (pmAlloc_aligned m.frames) hflags
    · rw [hframe]
      exact hfree
    · rw [hframe]
      exact hword.plain hplain

/-! ## The copy of a page -/

/-- The word of a page in a new table: the old flags, and a frame that was free
before, with what was in the old one. -/
structure PageCopied (start before next : Machine) (word old : BitVec 32) : Prop where
  flags : word &&& 0xfff = old &&& 0xfff
  fresh : before.frames.used (frameOf word).toNat = false
  plain : Plain next (frameOf word)
  contents : next.mem (frameOf word) = start.mem (frameOf old)

variable {before : Machine} {word old : BitVec 32}

theorem PageCopied.keep {written : Set (BitVec 20)}
    (hcopied : PageCopied start before m word old) (heffect : Effect written m next)
    (hwritten : ∀ frame ∈ written, before.frames.used frame.toNat = true) :
    PageCopied start before next word old where
  flags := hcopied.flags
  fresh := hcopied.fresh
  plain := heffect.plain hcopied.plain
  contents := by
    rw [heffect.keeps hcopied.plain]
    · exact hcopied.contents
    · intro hmem
      have hfresh := hcopied.fresh
      rw [hwritten _ hmem] at hfresh
      cases hfresh

/-- `memcpy` of a user page through a page that is mapped for it. -/
theorem Working.copyInto (hwork : Working start newPd held m)
    (hcopy : Copyable start pd newPd) {page : ℕ}
    (hfit : FirstFit (Untaken start held) 1 page) (hspot : Spot start page)
    (hothers : ¬ Tabled m page → ∀ other, Spot start other →
      Tabled m other ∨ slotOf other = slotOf page)
    {paddr : BitVec 32} (hplain : Plain m (frameOf paddr))
    (hnew : ¬ Allocated start (frameOf paddr)) {i j : ℕ} (hi : i < 768)
    (hslot : BitVec.ofNat 10 i ∈ userSlots) (hj : j < 1024)
    (hpresent : Paging.present
      (start.entry (BitVec.ofNat 10 i) (BitVec.ofNat 10 j)) = true) :
    ∃ mapped copied next, Kmalloc.kmallocPagePaddr m paddr 1 = some (mapped, pageAt page) ∧
      copyWords mapped (userAddress i j) (pageAt page) 1024 = some copied ∧
      unmap copied (pageAt page) = some next ∧ Working start newPd held next ∧
      Effect {frameOf paddr} m next ∧ Takes 1 m next ∧ next.mem (frameOf paddr) =
        start.mem (frameOf (start.entry (BitVec.ofNat 10 i) (BitVec.ofNat 10 j))) := by
  obtain ⟨mapped, hcall, hmapped, hmapping, htakes⟩ := hwork.push hfit hspot hothers paddr
  have hframe := frameOf_linked paddr
  have hmappedPlain := hmapping.plain hplain
  have hshows : Shows mapped page (frameOf paddr) := by
    have hshown := hmapped.shows List.mem_cons_self (by rwa [hframe])
    rwa [hframe] at hshown
  -- the new contents are in no frame that the walk of the user page reads
  have hsource : ∀ table, ∀ index < 1024,
      (mapped.setTable (frameOf paddr) table).load (wordAt (userAddress i j) index) =
        some (start.mem (frameOf (start.entry (BitVec.ofNat 10 i) (BitVec.ofNat 10 j)))
          (BitVec.ofNat 10 index)) := by
    intro table index hindex
    have htable := hmapped.setTable hmappedPlain (.inr hnew) table
    obtain ⟨hpde, hentry⟩ := htable.user hcopy hslot
    have hne := (entry_of_present hpresent).1
    have hload := load_userAddress hi hj hindex
      (by
        rw [hpde]
        exact hcopy.space.addressable.present _ (userSlots_subset hslot) hne)
      (by rwa [hentry])
    rw [hload, hentry, htable.userFrame hcopy hslot hpresent]
  have hwords := hshows.copyWords hsource (le_refl 1024)
  rw [overlay_all] at hwords
  have hcopiedWork := hmapped.setTable hmappedPlain (.inr hnew)
    (start.mem (frameOf (start.entry (BitVec.ofNat 10 i) (BitVec.ofNat 10 j))))
  have hcopying : Effect {frameOf paddr} mapped (mapped.setTable (frameOf paddr)
      (start.mem (frameOf (start.entry (BitVec.ofNat 10 i) (BitVec.ofNat 10 j))))) :=
    effect_setTable hmappedPlain.notDirectory (Set.mem_singleton _) _
  obtain ⟨next, hunmap, hnext, hunmapping, hframes⟩ :=
    hcopiedWork.pop hfit.free.2
  refine ⟨mapped, _, next, hcall, hwords, hunmap, hnext, ?_,
    htakes.trans (.of_frames hframes), ?_⟩
  · exact ((hmapping.mono (Set.empty_subset _)).trans hcopying).trans
      (hunmapping.mono (Set.empty_subset _))
  · rw [hunmapping.keeps (hcopying.plain hmappedPlain) (Set.notMem_empty _),
      setTable_mem_self]

/-- The second page, while the first one is held. -/
theorem Copyable.second (hcopy : Copyable start pd newPd) {first : ℕ}
    (hfirst : FirstFit (Free start) 1 first) (word : BitVec 32) :
    ∃ page, FirstFit (Untaken start [(first, word)]) 1 page ∧ Spot start page ∧
      ∀ other, Spot start other → other = first ∨ other = page := by
  obtain ⟨page, other, hpage, hother, hne, hpageFree, hotherFree⟩ := hcopy.room
  have hsome : ∃ second, KernelPage second ∧ Free start second ∧ second ≠ first := by
    by_cases hsame : page = first
    · exact ⟨other, hother, hotherFree, fun heq => hne (hsame.trans heq.symm)⟩
    · exact ⟨page, hpage, hpageFree, hsame⟩
  obtain ⟨second, hsecond, hfree⟩ := hsome
  have hhigh := hsecond.2
  obtain ⟨found, hfound⟩ : ∃ found,
      FirstFit (fun other => Free start other ∧ other ≠ first) 1 found := by
    apply exists_firstFit hsecond.1 (by omega)
    intro k hk
    rwa [show k = 0 by omega]
  refine ⟨found, hfound.congr ?_, .inr ⟨first, hfirst, hfound⟩, ?_⟩
  · intro third _
    simp only [Untaken, List.mem_singleton, forall_eq, ne_comm]
  · rintro third (hthird | ⟨first', hfirst', hthird⟩)
    · exact .inl (hthird.unique hfirst)
    · obtain rfl := hfirst'.unique hfirst
      exact .inr (hthird.unique hfound)

/-- One page is copied into a new table, unless `pm_alloc` has no frame for it. -/
theorem Working.copyPage {first : ℕ} (hwork : Working start newPd [(first, word)] m)
    (hcopy : Copyable start pd newPd) (hfirst : FirstFit (Free start) 1 first)
    (htable : Plain m (frameOf word)) (hnew : ¬ Allocated start (frameOf word)) {i j : ℕ}
    (hi : i < 768) (hslot : BitVec.ofNat 10 i ∈ userSlots) (hj : j < 1024)
    (hpresent : Paging.present
      (start.entry (BitVec.ofNat 10 i) (BitVec.ofNat 10 j)) = true) :
    Fork.copyPage m (pageAt first) i j
          (start.entry (BitVec.ofNat 10 i) (BitVec.ofNat 10 j) &&& 0xfff) = none ∧
        (pmAlloc m.frames).2 = 0 ∨
      ∃ next, Fork.copyPage m (pageAt first) i j
          (start.entry (BitVec.ofNat 10 i) (BitVec.ofNat 10 j) &&& 0xfff) = some next ∧
        Working start newPd [(first, word)] next ∧ Effect {frameOf word} m next ∧
        Takes 2 m next ∧ ∃ entry, next.mem (frameOf word) =
            Function.update (m.mem (frameOf word)) (BitVec.ofNat 10 j) entry ∧
          PageCopied start m next entry
            (start.entry (BitVec.ofNat 10 i) (BitVec.ofNat 10 j)) := by
  have hself : (first, word) ∈ [(first, word)] := List.mem_singleton_self _
  obtain ⟨named, hstore, hload, hnamed, htakes, hnames⟩ :=
    hwork.nameFrame (hwork.shows hself htable) (.inr hnew) hj
      (and_flagMask_lt (start.entry (BitVec.ofNat 10 i) (BitVec.ofNat 10 j)))
  simp only [Fork.copyPage, hstore, hload, Option.bind_eq_bind, Option.bind_some]
  rcases hnames with ⟨hsmall, hfailed⟩ | ⟨hlarge, hentry⟩
  · rw [if_pos hsmall]
    exact .inl ⟨rfl, hfailed⟩
  · rw [if_neg hlarge]
    set entry := BitVec.ofNat 32 (pmAlloc m.frames).2 |||
      start.entry (BitVec.ofNat 10 i) (BitVec.ofNat 10 j) &&& 0xfff
    have hmask : ~~~(0xfff : BitVec 32) = 0xfffff000 := by decide
    have hframe : frameOf (entry &&& ~~~0xfff) = frameOf entry := by
      rw [hmask, frameOf_address]
    have hne := htable.allocated.ne hentry.free
    have hfreshEntry := hwork.not_allocated hentry.free
    obtain ⟨second, hfit, hspot, hspots⟩ := hcopy.second hfirst word
    -- the first page is mapped, so only the second one may lack a table
    have hothers : ¬ Tabled named second → ∀ other, Spot start other →
        Tabled named other ∨ slotOf other = slotOf second := by
      intro _ other hother
      rcases hspots other hother with rfl | rfl
      · exact .inl (tabled_of_present (hnamed.entry (other, word) hself)
          (hnamed.present (other, word) hself))
      · exact .inr rfl
    obtain ⟨mapped, copied, next, hmap, hwords, hunmap, hnext, heffect, hcopying,
      hcontents⟩ := hnamed.copyInto hcopy hfit hspot hothers
        (by rw [hframe]; exact hentry.plain) (by rwa [hframe]) hi hslot hj hpresent
    rw [hframe] at heffect hcontents
    rw [userAddress] at hwords
    simp only [hmap, hwords, Option.bind_some, hunmap]
    refine .inr ⟨next, rfl, hnext, hentry.effect.extend heffect ?_, htakes.trans hcopying,
      entry, ?_, ?_⟩
    · rintro frame rfl
      exact .inr ⟨hentry.free, hentry.plain.allocated.used⟩
    · rw [heffect.keeps (hentry.effect.plain htable) hne, hentry.mem]
    · exact ⟨hentry.flags, hentry.free, heffect.plain hentry.plain, hcontents⟩

/-- One round of the inner loop: the word of an absent page is cleared. -/
theorem Working.copyEntry {first : ℕ} (hwork : Working start newPd [(first, word)] m)
    (hcopy : Copyable start pd newPd) (hfirst : FirstFit (Free start) 1 first)
    (htable : Plain m (frameOf word)) (hnew : ¬ Allocated start (frameOf word)) {i j : ℕ}
    (hi : i < 768) (hslot : BitVec.ofNat 10 i ∈ userSlots) (hj : j < 1024)
    (hne : start.pde (BitVec.ofNat 10 i) ≠ 0) :
    Fork.copyEntry m (pageAt first) i j = none ∧ (pmAlloc m.frames).2 = 0 ∧
        Paging.present (start.entry (BitVec.ofNat 10 i) (BitVec.ofNat 10 j)) = true ∨
      ∃ next, Fork.copyEntry m (pageAt first) i j = some next ∧
        Working start newPd [(first, word)] next ∧ Effect {frameOf word} m next ∧
        Takes (if Paging.present
          (start.entry (BitVec.ofNat 10 i) (BitVec.ofNat 10 j)) then 2 else 0) m next ∧
        ∃ entry, next.mem (frameOf word) =
            Function.update (m.mem (frameOf word)) (BitVec.ofNat 10 j) entry ∧
          (Paging.present (start.entry (BitVec.ofNat 10 i) (BitVec.ofNat 10 j)) = true →
            PageCopied start m next entry
              (start.entry (BitVec.ofNat 10 i) (BitVec.ofNat 10 j))) ∧
          (Paging.present (start.entry (BitVec.ofNat 10 i) (BitVec.ofNat 10 j)) = false →
            entry = 0) := by
  have hself : (first, word) ∈ [(first, word)] := List.mem_singleton_self _
  have hpresent := hcopy.space.addressable.present _ (userSlots_subset hslot) hne
  have hread : ∀ {mid : Machine}, Working start newPd [(first, word)] mid →
      mid.load (ptAddress (BitVec.ofNat 10 i) (BitVec.ofNat 10 j)) =
        some (start.entry (BitVec.ofNat 10 i) (BitVec.ofNat 10 j)) := by
    intro mid hmid
    obtain ⟨hpde, hentry⟩ := hmid.user hcopy hslot
    rw [load_ptAddress hmid.tables.addressable.recursive (by rwa [hpde]), ← hentry,
      Machine.entry, if_neg (by rwa [hpde])]
  have hcleared := hwork.setWord htable (.inr hnew) (BitVec.ofNat 10 j) 0
  have hclear : Effect {frameOf word} m
      (m.setWord (frameOf word) (BitVec.ofNat 10 j) 0) :=
    effect_setWord htable.notDirectory (Set.mem_singleton _) _ _
  have hword : (m.setWord (frameOf word) (BitVec.ofNat 10 j) 0).mem (frameOf word) =
      Function.update (m.mem (frameOf word)) (BitVec.ofNat 10 j) 0 :=
    setTable_mem_self _ _ _
  simp only [Fork.copyEntry, hread hwork, (hwork.shows hself htable).store hj,
    Option.bind_eq_bind, Option.bind_some]
  rw [hread hcleared, Option.bind_some]
  by_cases hmapped : Paging.present
      (start.entry (BitVec.ofNat 10 i) (BitVec.ofNat 10 j)) = true
  · rw [if_pos hmapped, if_pos hmapped]
    rcases hcleared.copyPage hcopy hfirst (hclear.plain htable) hnew hi hslot hj hmapped with
      ⟨hnone, hfailed⟩ | ⟨next, hsome, hnext, heffect, htakes, entry, hmem, hcopied⟩
    · exact .inl ⟨hnone, hfailed, hmapped⟩
    · refine .inr ⟨next, hsome, hnext, hclear.trans heffect, htakes, entry, ?_, ?_, ?_⟩
      · rw [hmem, hword, Function.update_idem]
      · exact fun _ => ⟨hcopied.flags, hcopied.fresh, hcopied.plain, hcopied.contents⟩
      · intro habsent
        rw [hmapped] at habsent
        cases habsent
  · rw [if_neg hmapped, if_neg hmapped]
    exact .inr ⟨_, rfl, hcleared, hclear, .of_frames rfl, 0, hword,
      fun hthere => absurd hthere hmapped, fun _ => rfl⟩

/-! ## The copy of a table -/

/-- The first words of a new table name copies of their own. -/
structure TableCopied (start before next : Machine) (table : BitVec 20)
    (slot : BitVec 10) (count : ℕ) : Prop where
  copied : ∀ index : BitVec 10, index.toNat < count →
    Paging.present (start.entry slot index) = true →
      PageCopied start before next (next.mem table index) (start.entry slot index)
  empty : ∀ index : BitVec 10, index.toNat < count →
    Paging.present (start.entry slot index) = false → next.mem table index = 0
  distinct : ∀ index other : BitVec 10, index.toNat < count → other.toNat < count →
    Paging.present (start.entry slot index) = true →
      Paging.present (start.entry slot other) = true →
        frameOf (next.mem table index) = frameOf (next.mem table other) → index = other

/-- A later page of the table has another frame. -/
theorem PageCopied.frame_ne {mid : Machine} {word' old' : BitVec 32}
    (hcopied : PageCopied start before mid word old)
    (hlater : PageCopied start mid next word' old') : frameOf word ≠ frameOf word' := by
  intro heq
  have hfresh := hlater.fresh
  rw [← heq, hcopied.plain.allocated.used] at hfresh
  cases hfresh

theorem PageCopied.earlier {mid : Machine} (hcopied : PageCopied start mid next word old)
    (hused : ∀ frame, before.frames.used frame = true → mid.frames.used frame = true) :
    PageCopied start before next word old where
  flags := hcopied.flags
  fresh := by
    by_contra hbefore
    have hfresh := hcopied.fresh
    rw [hused _ (by simpa using hbefore)] at hfresh
    cases hfresh
  plain := hcopied.plain
  contents := hcopied.contents

/-- The inner loop. -/
theorem Working.copyEntries {first : ℕ} (hwork : Working start newPd [(first, word)] m)
    (hcopy : Copyable start pd newPd) (hfirst : FirstFit (Free start) 1 first)
    (htable : Plain m (frameOf word)) (hnew : ¬ Allocated start (frameOf word)) {i : ℕ}
    (hi : i < 768) (hslot : BitVec.ofNat 10 i ∈ userSlots)
    (hne : start.pde (BitVec.ofNat 10 i) ≠ 0) {count : ℕ} (hcount : count ≤ 1024)
    (hcall : Fork.copyEntries m (pageAt first) i count = some next) :
    Working start newPd [(first, word)] next ∧ Effect {frameOf word} m next ∧
      TableCopied start m next (frameOf word) (BitVec.ofNat 10 i) count := by
  induction count generalizing next with
  | zero =>
      obtain rfl := Option.some.inj hcall
      exact ⟨hwork, .refl _ m, by simp, by simp, by simp⟩
  | succ count ih =>
      simp only [Fork.copyEntries, Option.bind_eq_bind, Option.bind_eq_some_iff] at hcall
      obtain ⟨mid, hmid, hround⟩ := hcall
      obtain ⟨hmidWork, hmidEffect, hdone⟩ := ih (by omega) hmid
      have hentry := hmidWork.copyEntry hcopy hfirst (hmidEffect.plain htable) hnew hi
        hslot (show count < 1024 by omega) hne
      rw [hround] at hentry
      obtain ⟨hnone, -⟩ | ⟨_, hsome, hnext, heffect, -, entry, hmem, hcopied, hempty⟩ :=
        hentry
      · cases hnone
      obtain rfl := Option.some.inj hsome
      have hnewest : next.mem (frameOf word) (BitVec.ofNat 10 count) = entry := by
        rw [hmem, Function.update_self]
      have holder : ∀ index : BitVec 10, index.toNat < count →
          next.mem (frameOf word) index = mid.mem (frameOf word) index := by
        intro index hindex
        rw [hmem, Function.update_of_ne]
        rintro rfl
        rw [ofNat_toNat (by omega)] at hindex
        omega
      have hcases : ∀ index : BitVec 10, index.toNat < count + 1 →
          index.toNat < count ∨ index = BitVec.ofNat 10 count := by
        intro index hindex
        rcases Nat.lt_succ_iff_lt_or_eq.mp hindex with hlt | heq
        · exact .inl hlt
        · refine .inr (BitVec.eq_of_toNat_eq ?_)
          rw [heq, ofNat_toNat (by omega)]
      have hkept : ∀ index : BitVec 10, index.toNat < count →
          Paging.present (start.entry (BitVec.ofNat 10 i) index) = true →
            PageCopied start m mid (mid.mem (frameOf word) index)
              (start.entry (BitVec.ofNat 10 i) index) := hdone.copied
      refine ⟨hnext, hmidEffect.trans heffect, ?_, ?_, ?_⟩
      · intro index hindex hpresent
        rcases hcases index hindex with hlt | rfl
        · rw [holder index hlt]
          apply (hkept index hlt hpresent).keep heffect
          rintro frame rfl
          exact htable.allocated.used
        · rw [hnewest]
          exact (hcopied hpresent).earlier fun _ hused => hmidEffect.used _ hused
      · intro index hindex habsent
        rcases hcases index hindex with hlt | rfl
        · rw [holder index hlt]
          exact hdone.empty index hlt habsent
        · rw [hnewest]
          exact hempty habsent
      · intro index other hindex hother hpresent hpresent' heq
        rcases hcases index hindex with hlt | rfl
        · rcases hcases other hother with hlt' | rfl
          · rw [holder index hlt, holder other hlt'] at heq
            exact hdone.distinct index other hlt hlt' hpresent hpresent' heq
          · rw [holder index hlt, hnewest] at heq
            exact absurd heq ((hkept index hlt hpresent).frame_ne (hcopied hpresent'))
        · rcases hcases other hother with hlt' | rfl
          · rw [holder other hlt', hnewest] at heq
            exact absurd heq.symm ((hkept other hlt' hpresent').frame_ne (hcopied hpresent))
          · rfl

variable {table : BitVec 20} {slot : BitVec 10}

theorem TableCopied.keep {written : Set (BitVec 20)}
    (hdone : TableCopied start before m table slot count) (heffect : Effect written m next)
    (htable : Plain m table) (hnot : table ∉ written)
    (hwritten : ∀ frame ∈ written, before.frames.used frame.toNat = true) :
    TableCopied start before next table slot count := by
  have hmem := heffect.keeps htable hnot
  constructor
  · intro index hindex hpresent
    rw [hmem]
    exact (hdone.copied index hindex hpresent).keep heffect hwritten
  · intro index hindex habsent
    rw [hmem]
    exact hdone.empty index hindex habsent
  · rw [hmem]
    exact hdone.distinct

theorem TableCopied.earlier {mid : Machine}
    (hdone : TableCopied start mid next table slot count)
    (hused : ∀ frame, before.frames.used frame = true → mid.frames.used frame = true) :
    TableCopied start before next table slot count where
  copied index hindex hpresent := (hdone.copied index hindex hpresent).earlier hused
  empty := hdone.empty
  distinct := hdone.distinct

/-- The word of a slot in the new directory names a copy of the slot's table. -/
structure SlotCopied (start before next : Machine) (newPd : BitVec 20)
    (slot : BitVec 10) : Prop where
  flags : next.mem newPd slot &&& 0xfff = start.pde slot &&& 0xfff
  fresh : before.frames.used (frameOf (next.mem newPd slot)).toNat = false
  plain : Plain next (frameOf (next.mem newPd slot))
  table : TableCopied start before next (frameOf (next.mem newPd slot)) slot 1024

theorem SlotCopied.not_written {written : Set (BitVec 20)}
    (hdone : SlotCopied start before m newPd slot)
    (hwritten : ∀ frame ∈ written, before.frames.used frame.toNat = true) :
    frameOf (m.mem newPd slot) ∉ written := by
  intro hmem
  have hfresh := hdone.fresh
  rw [hwritten _ hmem] at hfresh
  cases hfresh

theorem SlotCopied.keep {written : Set (BitVec 20)}
    (hdone : SlotCopied start before m newPd slot) (heffect : Effect written m next)
    (hmem : next.mem newPd slot = m.mem newPd slot)
    (hwritten : ∀ frame ∈ written, before.frames.used frame.toNat = true) :
    SlotCopied start before next newPd slot := by
  constructor
  · rw [hmem]
    exact hdone.flags
  · rw [hmem]
    exact hdone.fresh
  · rw [hmem]
    exact heffect.plain hdone.plain
  · rw [hmem]
    exact hdone.table.keep heffect hdone.plain (hdone.not_written hwritten) hwritten

theorem SlotCopied.earlier {mid : Machine} (hdone : SlotCopied start mid next newPd slot)
    (hused : ∀ frame, before.frames.used frame = true → mid.frames.used frame = true) :
    SlotCopied start before next newPd slot where
  flags := hdone.flags
  fresh := by
    by_contra hbefore
    have hfresh := hdone.fresh
    rw [hused _ (by simpa using hbefore)] at hfresh
    cases hfresh
  plain := hdone.plain
  table := hdone.table.earlier hused

/-- The first page, while no page is held. -/
theorem Copyable.first (hcopy : Copyable start pd newPd) :
    ∃ first, FirstFit (Free start) 1 first := by
  obtain ⟨page, -, hpage, -, -, hfree, -⟩ := hcopy.room
  have hhigh := hpage.2
  apply exists_firstFit hpage.1 (by omega)
  intro j hj
  rwa [show j = 0 by omega]

/-- A new table is named in the new directory and shown by the first page. -/
structure OpensTable (start m mapped : Machine) (newPd : BitVec 20) (first i : ℕ)
    (entry : BitVec 32) : Prop where
  work : Working start newPd [(first, entry ||| linkFlags 0 1)] mapped
  effect : Effect {newPd} m mapped
  takes : Takes 2 m mapped
  mem : mapped.mem newPd = Function.update (m.mem newPd) (BitVec.ofNat 10 i) entry
  flags : entry &&& 0xfff = start.pde (BitVec.ofNat 10 i) &&& 0xfff
  free : m.frames.used (frameOf entry).toNat = false
  plain : Plain mapped (frameOf entry)

/-- A slot without a table is passed over.  For any other one there is a new
table, unless `pm_alloc` has no frame for it. -/
theorem Working.openTable (hwork : Working start newPd [] m)
    (hcopy : Copyable start pd newPd) {first : ℕ} (hfirst : FirstFit (Free start) 1 first)
    {i : ℕ} (hi : i < 768) (hslot : BitVec.ofNat 10 i ∈ userSlots) :
    (start.pde (BitVec.ofNat 10 i) = 0 → Fork.copySlot m (pageAt pd) i = some m) ∧
      (start.pde (BitVec.ofNat 10 i) ≠ 0 →
        Fork.copySlot m (pageAt pd) i = none ∧ (pmAlloc m.frames).2 = 0 ∨
          ∃ mapped entry, Fork.copySlot m (pageAt pd) i =
              (Fork.copyEntries mapped (pageAt first) i 1024).bind
                (fun copied => unmap copied (pageAt first)) ∧
            OpensTable start m mapped newPd first i entry) := by
  obtain ⟨hpde, -⟩ := hwork.user hcopy hslot
  have hload := load_pdAddress hwork.tables.addressable.recursive (BitVec.ofNat 10 i)
  have hlow : Paging.present (start.pde (BitVec.ofNat 10 i) &&& 0xfff) =
      Paging.present (start.pde (BitVec.ofNat 10 i)) := by
    simp [Paging.present]
  simp only [Fork.copySlot, hload, hpde, hlow, Option.bind_eq_bind, Option.bind_some]
  constructor
  · intro hempty
    have habsent : Paging.present (start.pde (BitVec.ofNat 10 i)) = false := by
      rw [hempty]
      decide
    rw [if_pos habsent]
  · intro hne
    have hpresent := hcopy.space.addressable.present _ (userSlots_subset hslot) hne
    rw [if_neg (by simp [hpresent])]
    have hshows := hwork.showsPd hcopy
    obtain ⟨named, hstore, hread, hnamed, htakes, hnames⟩ :=
      hwork.nameFrame hshows (.inl rfl) (show i < 1024 by omega)
        (and_flagMask_lt (start.pde (BitVec.ofNat 10 i)))
    simp only [hstore, hread, Option.bind_some]
    rcases hnames with ⟨hsmall, hfailed⟩ | ⟨hlarge, hentry⟩
    · rw [if_pos hsmall]
      exact .inl ⟨rfl, hfailed⟩
    · rw [if_neg hlarge]
      set entry := BitVec.ofNat 32 (pmAlloc m.frames).2 |||
        start.pde (BitVec.ofNat 10 i) &&& 0xfff
      have hfit : FirstFit (Untaken start []) 1 first :=
        hfirst.congr fun other _ => ⟨fun h => h.1, fun h => ⟨h, by simp⟩⟩
      have hothers : ¬ Tabled named first → ∀ other, Spot start other →
          Tabled named other ∨ slotOf other = slotOf first := by
        intro huntabled other hother
        refine .inr (hother.slotOf_eq hfirst ?_)
        intro htabled
        exact huntabled (hnamed.effect.tabled hfirst.kernelPage htabled)
      obtain ⟨mapped, hmap, hmapped, hmapping, hmapTakes⟩ :=
        hnamed.push hfit (.inl hfirst) hothers entry
      rw [hmap, Option.bind_some]
      refine .inr ⟨mapped, entry, rfl, hmapped, ?_, htakes.trans hmapTakes, ?_,
        hentry.flags, hentry.free, hmapping.plain hentry.plain⟩
      · exact hentry.effect.trans (hmapping.mono (Set.empty_subset _))
      · rw [hmapping.keeps (hentry.effect.plain hshows.plain) (Set.notMem_empty _),
          hentry.mem]

/-- One round of the loop over the user slots. -/
theorem Working.copySlot (hwork : Working start newPd [] m)
    (hcopy : Copyable start pd newPd) {i : ℕ} (hi : i < 768)
    (hslot : BitVec.ofNat 10 i ∈ userSlots)
    (hcall : Fork.copySlot m (pageAt pd) i = some next) :
    Working start newPd [] next ∧ Effect {newPd} m next ∧
      (start.pde (BitVec.ofNat 10 i) = 0 → next.mem newPd = m.mem newPd) ∧
      (start.pde (BitVec.ofNat 10 i) ≠ 0 →
        (∃ entry, next.mem newPd =
          Function.update (m.mem newPd) (BitVec.ofNat 10 i) entry) ∧
        SlotCopied start m next newPd (BitVec.ofNat 10 i)) := by
  obtain ⟨first, hfirst⟩ := hcopy.first
  obtain ⟨hpass, hopen⟩ := hwork.openTable hcopy hfirst hi hslot
  by_cases hempty : start.pde (BitVec.ofNat 10 i) = 0
  · rw [hpass hempty] at hcall
    obtain rfl := Option.some.inj hcall
    exact ⟨hwork, .refl _ m, fun _ => rfl, fun hne => absurd hempty hne⟩
  · obtain ⟨hnone, -⟩ | ⟨mapped, entry, hslotCall, hopens⟩ := hopen hempty
    · rw [hnone] at hcall
      cases hcall
    rw [hslotCall] at hcall
    obtain ⟨copied, hentries, hunmap⟩ := Option.bind_eq_some_iff.mp hcall
    have hframe := frameOf_linked entry
    have hplainPd := hopens.effect.plain (hwork.showsPd hcopy).plain
    have hne := (hwork.showsPd hcopy).plain.allocated.ne hopens.free
    obtain ⟨hcopied, hcopying, hdone⟩ := hopens.work.copyEntries hcopy hfirst
      (by rw [hframe]; exact hopens.plain)
      (by rw [hframe]; exact hwork.not_allocated hopens.free) hi hslot hempty le_rfl hentries
    obtain ⟨last, hlastUnmap, hlast, hunmapping, -⟩ := hcopied.pop (by simp)
    rw [hlastUnmap] at hunmap
    obtain rfl := (Option.some.inj hunmap).symm
    rw [hframe] at hcopying hdone
    -- the new directory is written once, before the table is
    have hdirectory : next.mem newPd =
        Function.update (m.mem newPd) (BitVec.ofNat 10 i) entry := by
      rw [hunmapping.keeps (hcopying.plain hplainPd) (Set.notMem_empty _),
        hcopying.keeps hplainPd hne, hopens.mem]
    have hword : next.mem newPd (BitVec.ofNat 10 i) = entry := by
      rw [hdirectory, Function.update_self]
    have hwhole : Effect {newPd} m next := by
      refine (hopens.effect.extend hcopying ?_).trans
        (hunmapping.mono (Set.empty_subset _))
      rintro frame rfl
      exact .inr ⟨hopens.free, hopens.plain.allocated.used⟩
    have hnext := hcopying.plain hopens.plain
    refine ⟨hlast, hwhole, fun hzero => absurd hzero hempty,
      fun _ => ⟨⟨entry, hdirectory⟩, ?_⟩⟩
    constructor
    · rw [hword]
      exact hopens.flags
    · rw [hword]
      exact hopens.free
    · rw [hword]
      exact hunmapping.plain hnext
    · rw [hword]
      exact (hdone.earlier fun _ hused => hopens.effect.used _ hused).keep hunmapping hnext
        (Set.notMem_empty _) (by simp)

/-! ## The copy of the user half -/

/-- The word of a page in the copy of its table. -/
def pageWord (m : Machine) (newPd : BitVec 20) (slot index : BitVec 10) : BitVec 32 :=
  m.mem (frameOf (m.mem newPd slot)) index

/-- The slots up to `count` are copied, and no two of their pages have one
frame. -/
structure SlotsCopied (start next : Machine) (newPd : BitVec 20) (count : ℕ) :
    Prop where
  copied : ∀ slot ∈ userSlots, slot.toNat ≤ count → start.pde slot ≠ 0 →
    SlotCopied start start next newPd slot
  empty : ∀ slot ∈ userSlots, count < slot.toNat ∨ start.pde slot = 0 →
    next.mem newPd slot = 0
  distinct : ∀ slot ∈ userSlots, slot.toNat ≤ count → ∀ slot' ∈ userSlots,
    slot'.toNat ≤ count → ∀ index index',
      Paging.present (start.entry slot index) = true →
        Paging.present (start.entry slot' index') = true →
          frameOf (pageWord next newPd slot index) =
            frameOf (pageWord next newPd slot' index') → slot = slot'

theorem SlotCopied.page (hdone : SlotCopied start before next newPd slot)
    {index : BitVec 10} (hpresent : Paging.present (start.entry slot index) = true) :
    PageCopied start before next (pageWord next newPd slot index)
      (start.entry slot index) :=
  hdone.table.copied index index.isLt hpresent

theorem SlotCopied.pageWord_eq {written : Set (BitVec 20)}
    (hdone : SlotCopied start before m newPd slot) (heffect : Effect written m next)
    (hmem : next.mem newPd slot = m.mem newPd slot)
    (hwritten : ∀ frame ∈ written, before.frames.used frame.toNat = true)
    (index : BitVec 10) : pageWord next newPd slot index = pageWord m newPd slot index := by
  rw [pageWord, pageWord, hmem, heffect.keeps hdone.plain (hdone.not_written hwritten)]

theorem Copyable.used_newPd (hcopy : Copyable start pd newPd) :
    ∀ frame ∈ ({newPd} : Set (BitVec 20)), start.frames.used frame.toNat = true := by
  rintro frame rfl
  exact hcopy.shows.plain.allocated.used

theorem SlotsCopied.keep (hcopy : Copyable start pd newPd)
    (hdone : SlotsCopied start m newPd count) (heffect : Effect {newPd} m next)
    (hmem : ∀ slot ∈ userSlots, next.mem newPd slot = m.mem newPd slot) :
    SlotsCopied start next newPd count := by
  have hwritten := hcopy.used_newPd
  have hword : ∀ slot ∈ userSlots, slot.toNat ≤ count → ∀ index,
      Paging.present (start.entry slot index) = true →
        pageWord next newPd slot index = pageWord m newPd slot index := by
    intro slot hslot hle index hpresent
    have hcopied := hdone.copied slot hslot hle (entry_of_present hpresent).1
    exact hcopied.pageWord_eq heffect (hmem slot hslot) hwritten index
  constructor
  · intro slot hslot hle hne
    exact (hdone.copied slot hslot hle hne).keep heffect (hmem slot hslot) hwritten
  · intro slot hslot hempty
    rw [hmem slot hslot]
    exact hdone.empty slot hslot hempty
  · intro slot hslot hle slot' hslot' hle' index index' hpresent hpresent' heq
    rw [hword slot hslot hle index hpresent, hword slot' hslot' hle' index' hpresent'] at heq
    exact hdone.distinct slot hslot hle slot' hslot' hle' index index' hpresent hpresent' heq

theorem ofNat_mem_userSlots {i : ℕ} (hpos : i ≠ 0) (hi : i < 768) :
    BitVec.ofNat 10 i ∈ userSlots := by
  have hvalue := ofNat_toNat (show i < 1024 by omega)
  constructor
  · intro hzero
    rw [hzero] at hvalue
    exact hpos hvalue.symm
  · rw [hvalue]
    exact hi

/-- One more slot. -/
theorem SlotsCopied.succ (hcopy : Copyable start pd newPd)
    (hdone : SlotsCopied start m newPd count) (hstart : Effect {newPd} start m)
    (heffect : Effect {newPd} m next) (hbound : count + 1 < 768)
    (hskip : start.pde (BitVec.ofNat 10 (count + 1)) = 0 → next.mem newPd = m.mem newPd)
    (hslot : start.pde (BitVec.ofNat 10 (count + 1)) ≠ 0 →
      (∃ entry, next.mem newPd =
        Function.update (m.mem newPd) (BitVec.ofNat 10 (count + 1)) entry) ∧
      SlotCopied start m next newPd (BitVec.ofNat 10 (count + 1))) :
    SlotsCopied start next newPd (count + 1) := by
  have hvalue := ofNat_toNat (show count + 1 < 1024 by omega)
  have hcases : ∀ slot : BitVec 10, slot.toNat ≤ count + 1 →
      slot.toNat ≤ count ∨ slot = BitVec.ofNat 10 (count + 1) := by
    intro slot hle
    rcases Nat.lt_or_eq_of_le hle with hlt | heq
    · exact .inl (by omega)
    · refine .inr (BitVec.eq_of_toNat_eq ?_)
      rw [heq, hvalue]
  have hwritten := hcopy.used_newPd
  have hother : ∀ slot : BitVec 10, slot ≠ BitVec.ofNat 10 (count + 1) →
      next.mem newPd slot = m.mem newPd slot := by
    intro slot hne
    by_cases hempty : start.pde (BitVec.ofNat 10 (count + 1)) = 0
    · rw [hskip hempty]
    · obtain ⟨⟨entry, hmem⟩, -⟩ := hslot hempty
      rw [hmem, Function.update_of_ne hne]
  have hsmaller : ∀ slot : BitVec 10, slot.toNat ≤ count →
      slot ≠ BitVec.ofNat 10 (count + 1) := by
    rintro slot hle rfl
    omega
  have hold : ∀ slot ∈ userSlots, slot.toNat ≤ count → start.pde slot ≠ 0 →
      SlotCopied start start next newPd slot ∧ ∀ index,
        pageWord next newPd slot index = pageWord m newPd slot index := by
    intro slot hmem hle hne
    have hcopied := hdone.copied slot hmem hle hne
    have hsame := hother slot (hsmaller slot hle)
    exact ⟨hcopied.keep heffect hsame hwritten,
      hcopied.pageWord_eq heffect hsame hwritten⟩
  have hnew : start.pde (BitVec.ofNat 10 (count + 1)) ≠ 0 →
      SlotCopied start m next newPd (BitVec.ofNat 10 (count + 1)) := fun hne => (hslot hne).2
  constructor
  · intro slot hmem hle hne
    rcases hcases slot hle with hlt | rfl
    · exact (hold slot hmem hlt hne).1
    · exact (hnew hne).earlier fun _ hused => hstart.used _ hused
  · intro slot hmem hempty
    by_cases hsame : slot = BitVec.ofNat 10 (count + 1)
    · subst hsame
      have hzero := hempty.resolve_left (by omega)
      rw [hskip hzero]
      exact hdone.empty _ hmem (.inr hzero)
    · rw [hother slot hsame]
      exact hdone.empty slot hmem (hempty.imp_left (by omega))
  · intro slot hmem hle slot' hmem' hle' index index' hpresent hpresent' heq
    have hne := (entry_of_present hpresent).1
    have hne' := (entry_of_present hpresent').1
    rcases hcases slot hle with hlt | rfl
    · have hpage := (hdone.copied slot hmem hlt hne).page hpresent
      rw [(hold slot hmem hlt hne).2] at heq
      rcases hcases slot' hle' with hlt' | rfl
      · rw [(hold slot' hmem' hlt' hne').2] at heq
        exact hdone.distinct slot hmem hlt slot' hmem' hlt' index index' hpresent hpresent' heq
      · exact absurd heq (hpage.frame_ne ((hnew hne').page hpresent'))
    · rcases hcases slot' hle' with hlt' | rfl
      · have hpage := (hdone.copied slot' hmem' hlt' hne').page hpresent'
        rw [(hold slot' hmem' hlt' hne').2] at heq
        exact absurd heq.symm (hpage.frame_ne ((hnew hne).page hpresent))
      · rfl

/-- The loop over the user slots. -/
theorem Working.copySlots (hwork : Working start newPd [] m)
    (hcopy : Copyable start pd newPd) (hzero : ∀ slot, m.mem newPd slot = 0)
    (hcount : count < 768) (hcall : Fork.copySlots m (pageAt pd) count = some next) :
    Working start newPd [] next ∧ SlotsCopied start next newPd count := by
  induction count generalizing next with
  | zero =>
      obtain rfl := Option.some.inj hcall
      have hpositive : ∀ slot ∈ userSlots, ¬ slot.toNat ≤ 0 := by
        intro slot hslot hle
        apply hslot.1
        apply BitVec.eq_of_toNat_eq
        exact Nat.le_zero.mp hle
      refine ⟨hwork, ?_, ?_, ?_⟩
      · intro slot hslot hle
        exact absurd hle (hpositive slot hslot)
      · intro slot _ _
        exact hzero slot
      · intro slot hslot hle
        exact absurd hle (hpositive slot hslot)
  | succ count ih =>
      simp only [Fork.copySlots, Option.bind_eq_bind, Option.bind_eq_some_iff] at hcall
      obtain ⟨mid, hmid, hround⟩ := hcall
      obtain ⟨hmidWork, hdone⟩ := ih (by omega) hmid
      have hslot := ofNat_mem_userSlots (Nat.succ_ne_zero count) hcount
      obtain ⟨hnext, heffect, hskip, hcopied⟩ :=
        hmidWork.copySlot hcopy hcount hslot hround
      exact ⟨hnext, hdone.succ hcopy hmidWork.effect heffect hcount hskip hcopied⟩

/-! ## The new directory -/

theorem present_of_flags {word other : BitVec 32} (hflags : word &&& 0xfff = other &&& 0xfff) :
    Paging.present word = Paging.present other := by
  have hbit := congrArg (fun value : BitVec 32 => value.getLsbD 0) hflags
  simpa [Paging.present] using hbit

theorem entryIn_current (hspace : AddressSpace m) {slot : BitVec 10}
    (hslot : slot ∈ userSlots) (index : BitVec 10) :
    entryIn m m.directory slot index = m.entry slot index := by
  change (if Paging.present (m.pde slot) then m.mem (frameOf (m.pde slot)) index else 0) = _
  by_cases hempty : m.pde slot = 0
  · rw [Machine.entry, if_pos hempty, hempty]
    rfl
  · rw [Machine.entry, if_neg hempty,
      if_pos (hspace.addressable.present slot (userSlots_subset hslot) hempty)]

/-- The copy of a page through the new directory. -/
theorem SlotsCopied.entryIn (hcopy : Copyable start pd newPd)
    (hdone : SlotsCopied start next newPd 767) {slot : BitVec 10} (hslot : slot ∈ userSlots)
    (index : BitVec 10) :
    DeepCopy.entryIn next newPd slot index =
      if Paging.present (start.entry slot index) then pageWord next newPd slot index
      else 0 := by
  have hle : slot.toNat ≤ 767 := Nat.le_of_lt_succ hslot.2
  by_cases hempty : start.pde slot = 0
  · have habsent : ¬ Paging.present (start.entry slot index) = true := fun hpresent =>
      (entry_of_present hpresent).1 hempty
    rw [DeepCopy.entryIn, hdone.empty slot hslot (.inr hempty), if_neg habsent]
    rfl
  · have hcopied := hdone.copied slot hslot hle hempty
    have hpresent := hcopy.space.addressable.present slot (userSlots_subset hslot) hempty
    rw [← present_of_flags hcopied.flags] at hpresent
    rw [DeepCopy.entryIn, if_pos hpresent]
    by_cases hpage : Paging.present (start.entry slot index) = true
    · rw [if_pos hpage]
      rfl
    · rw [if_neg hpage]
      exact hcopied.table.empty index index.isLt (by simpa using hpage)

/-- The words of the new directory in the end. -/
def closedTable (m : Machine) (newPd : BitVec 20) (last : BitVec 32) :
    BitVec 10 → BitVec 32 :=
  Function.update (Function.update (overlay 768 256 m.pde (m.mem newPd)) 0 (m.pde 0)) 1023
    last

theorem closedTable_last (m : Machine) (newPd : BitVec 20) (last : BitVec 32) :
    closedTable m newPd last 1023 = last :=
  Function.update_self _ _ _

theorem closedTable_user (m : Machine) (newPd : BitVec 20) (last : BitVec 32)
    {slot : BitVec 10} (hslot : slot ∈ userSlots) :
    closedTable m newPd last slot = m.mem newPd slot := by
  obtain ⟨hfirst, hhigh⟩ := hslot
  have hend : slot ≠ 1023 := by
    rintro rfl
    exact absurd hhigh (by decide)
  rw [closedTable, Function.update_of_ne hend, Function.update_of_ne hfirst,
    overlay_outside]
  omega

theorem closedTable_kernel (m : Machine) (newPd : BitVec 20) (last : BitVec 32)
    {slot : BitVec 10} (hslot : slot ∉ userSlots) (hend : slot ≠ 1023) :
    closedTable m newPd last slot = m.pde slot := by
  rw [closedTable, Function.update_of_ne hend]
  by_cases hfirst : slot = 0
  · subst hfirst
    exact Function.update_self _ _ _
  · have hlow : 768 ≤ slot.toNat := by
      by_contra hlt
      exact hslot ⟨hfirst, by omega⟩
    have hbound := slot.isLt
    rw [Function.update_of_ne hfirst, overlay_inside hlow (by omega)]

/-- The last lines: the kernel half, slot 0 and the recursive slot. -/
theorem Working.close (hwork : Working start newPd [] m)
    (hcopy : Copyable start pd newPd) :
    ∃ kernel last, Fork.copyKernel m (pageAt pd) 256 = some kernel ∧
      closeDirectory kernel (pageAt pd) =
        some (m.setTable newPd (closedTable m newPd last)) ∧
      Paging.present last = true ∧ frameOf last = newPd := by
  have hshows := hwork.showsPd hcopy
  have hfirst : BitVec.ofNat 10 0 = 0 := rfl
  have hend : BitVec.ofNat 10 1023 = 1023 := rfl
  set half := overlay 768 256 m.pde (m.mem newPd) with hhalfWords
  have hhalf := hshows.setTable hshows.plain half
  have hload := load_pdAddress hhalf.tables.addressable.recursive 0
  rw [setTable_pde hshows.plain.notDirectory] at hload
  have hstore := hhalf.store (show 0 < 1024 by omega) (m.pde 0)
  rw [setTable_setWord, hfirst] at hstore
  set zeroed := Function.update half 0 (m.pde 0) with hzeroed
  have hzero := hshows.setTable hshows.plain zeroed
  have hpaddr := getPaddr_page hzero.tables.addressable hshows.kernelPage
  set entry := pageEntry (m.setTable newPd zeroed) pd with hentry
  have hlast := hzero.store (show 1023 < 1024 by omega) ((entry &&& 0xfffff000) ||| ptPresent)
  rw [setTable_setWord, hend] at hlast
  refine ⟨m.setTable newPd half, (entry &&& 0xfffff000) ||| ptPresent,
    hshows.copyKernel le_rfl, ?_, ?_, ?_⟩
  · simp only [closeDirectory, hload, hstore, hpaddr, hlast, Option.bind_eq_bind,
      Option.bind_some]
    rfl
  · rw [present_or]
    exact Bool.or_true _
  · rw [frameOf_or_flags _ (by decide), frameOf_address]
    exact hzero.shown

/-- All of `mapdup_full`. -/
theorem Copyable.mapdupFull (hcopy : Copyable start pd newPd)
    (hcall : Fork.mapdupFull start (pageAt pd) = some next) :
    Working start newPd [] next ∧ Copied start next newPd := by
  simp only [Fork.mapdupFull, Option.bind_eq_bind, Option.bind_eq_some_iff] at hcall
  obtain ⟨cleared, hclear, users, husers, kernel, hkernel, hclose⟩ := hcall
  have hshows := hcopy.shows
  rw [hshows.clearWords le_rfl, overlay_all] at hclear
  obtain rfl := Option.some.inj hclear
  have hcleared := hcopy.working.setTable hshows.plain (.inl rfl) fun _ => 0
  obtain ⟨hwork, hdone⟩ := hcleared.copySlots hcopy
    (fun slot => congrFun (setTable_mem_self _ _ _) slot) (by omega) husers
  obtain ⟨kernel', last, hkernel', hclose', hself, hnamed⟩ := hwork.close hcopy
  rw [hkernel'] at hkernel
  obtain rfl := Option.some.inj hkernel
  rw [hclose'] at hclose
  obtain rfl := Option.some.inj hclose
  generalize htable : closedTable users newPd last = table
  have hlast : table 1023 = last := by rw [← htable, closedTable_last]
  have huser : ∀ slot ∈ userSlots, table slot = users.mem newPd slot := by
    intro slot hslot
    rw [← htable, closedTable_user users newPd last hslot]
  have hplain := (hwork.showsPd hcopy).plain
  have hnext := hwork.setTable hplain (.inl rfl) table
  have hpde : ∀ slot, (users.setTable newPd table).pde slot = users.pde slot :=
    setTable_pde hplain.notDirectory table
  have hmem : (users.setTable newPd table).mem newPd = table := setTable_mem_self _ _ _
  have hpages := hdone.keep hcopy
    (effect_setTable hplain.notDirectory (Set.mem_singleton _) table)
    (fun slot hslot => by rw [hmem, huser slot hslot])
  have hentry : ∀ slot ∈ userSlots, ∀ index,
      entryIn start start.directory slot index = start.entry slot index :=
    fun slot hslot index => entryIn_current hcopy.space hslot index
  have hcopied : ∀ slot ∈ userSlots, ∀ index,
      Paging.present (start.entry slot index) = true →
        SlotCopied start start (users.setTable newPd table) newPd slot ∧
        entryIn (users.setTable newPd table) newPd slot index =
          pageWord (users.setTable newPd table) newPd slot index := by
    intro slot hslot index hpresent
    refine ⟨hpages.copied slot hslot (Nat.le_of_lt_succ hslot.2)
      (entry_of_present hpresent).1, ?_⟩
    rw [hpages.entryIn hcopy hslot, if_pos hpresent]
  refine ⟨hnext, ?_⟩
  constructor
  · intro slot hslot index
    rw [hentry slot hslot, hpages.entryIn hcopy hslot]
    split
    · rename_i hpresent
      rw [hpresent, present_of_flags
        ((hcopied slot hslot index hpresent).1.page hpresent).flags]
      exact hpresent
    · rename_i habsent
      have hfalse : Paging.present (start.entry slot index) = false := by simpa using habsent
      rw [hfalse]
      decide
  · intro slot hslot index hpresent
    rw [hentry slot hslot] at hpresent ⊢
    obtain ⟨hslotCopied, hword⟩ := hcopied slot hslot index hpresent
    rw [hword]
    exact ⟨(hslotCopied.page hpresent).flags, hslotCopied.flags⟩
  · intro slot hslot index hpresent
    rw [hentry slot hslot] at hpresent
    obtain ⟨hslotCopied, hword⟩ := hcopied slot hslot index hpresent
    rw [hword]
    exact (hslotCopied.page hpresent).fresh
  · intro slot hslot index slot' hslot' index' hpresent hpresent' heq
    rw [hentry slot hslot] at hpresent
    rw [hentry slot' hslot'] at hpresent'
    obtain ⟨hslotCopied, hword⟩ := hcopied slot hslot index hpresent
    obtain ⟨-, hword'⟩ := hcopied slot' hslot' index' hpresent'
    rw [hword, hword'] at heq
    obtain rfl := hpages.distinct slot hslot (Nat.le_of_lt_succ hslot.2) slot' hslot'
      (Nat.le_of_lt_succ hslot'.2) index index' hpresent hpresent' heq
    exact ⟨rfl, hslotCopied.table.distinct index index' index.isLt index'.isLt hpresent
      hpresent' heq⟩
  · intro slot hslot index hpresent
    rw [hentry slot hslot] at hpresent ⊢
    obtain ⟨hslotCopied, hword⟩ := hcopied slot hslot index hpresent
    rw [hword]
    exact (hslotCopied.page hpresent).contents
  · intro slot hslot hne
    rw [hmem, hpde, ← htable, closedTable_kernel users newPd last hslot hne]
  · rw [hmem, hlast]
    exact ⟨hself, hnamed⟩
  · exact hnext.effect.directory
  · intro slot hslot
    exact hnext.user hcopy hslot
  · intro slot hslot index hpresent
    exact hnext.userFrame hcopy hslot hpresent

/-! ## Enough frames -/

/-- Two frames for every page among the first ones of a slot. -/
def pageFrames (m : Machine) (slot : BitVec 10) : ℕ → ℕ
  | 0 => 0
  | j + 1 => pageFrames m slot j +
      if Paging.present (m.entry slot (BitVec.ofNat 10 j)) then 2 else 0

/-- Two frames for every table and every page of the first slots. -/
def copyFrames (m : Machine) : ℕ → ℕ
  | 0 => 0
  | i + 1 => copyFrames m i +
      if m.pde (BitVec.ofNat 10 (i + 1)) = 0 then 0
      else 2 + pageFrames m (BitVec.ofNat 10 (i + 1)) 1024

theorem Takes.served (htakes : Takes count m next) (hserved : Succeeds m.frames (1 + count)) :
    (pmAlloc next.frames).2 ≠ 0 :=
  (htakes 1 hserved).1

theorem Working.copyEntries_returns {first : ℕ}
    (hwork : Working start newPd [(first, word)] m) (hcopy : Copyable start pd newPd)
    (hfirst : FirstFit (Free start) 1 first) (htable : Plain m (frameOf word))
    (hnew : ¬ Allocated start (frameOf word)) {i : ℕ} (hi : i < 768)
    (hslot : BitVec.ofNat 10 i ∈ userSlots) (hne : start.pde (BitVec.ofNat 10 i) ≠ 0)
    (hcount : count ≤ 1024)
    (hserved : Succeeds m.frames (pageFrames start (BitVec.ofNat 10 i) count)) :
    ∃ next, Fork.copyEntries m (pageAt first) i count = some next ∧
      Takes (pageFrames start (BitVec.ofNat 10 i) count) m next := by
  induction count with
  | zero => exact ⟨m, rfl, .of_frames rfl⟩
  | succ count ih =>
      rw [pageFrames] at hserved ⊢
      obtain ⟨mid, hmid, hmidTakes⟩ := ih (by omega) (hserved.mono (by omega))
      obtain ⟨hmidWork, heffect, -⟩ :=
        hwork.copyEntries hcopy hfirst htable hnew hi hslot hne (by omega) hmid
      rcases hmidWork.copyEntry hcopy hfirst (heffect.plain htable) hnew hi hslot
          (show count < 1024 by omega) hne with
        ⟨-, hfailed, hpresent⟩ | ⟨next, hround, -, -, htakes, -⟩
      · rw [if_pos hpresent] at hserved
        exact absurd hfailed (hmidTakes.served (hserved.mono (by omega)))
      · refine ⟨next, ?_, hmidTakes.trans htakes⟩
        simp only [Fork.copyEntries, hmid, hround, Option.bind_eq_bind, Option.bind_some]

theorem Working.copySlot_returns (hwork : Working start newPd [] m)
    (hcopy : Copyable start pd newPd) {i : ℕ} (hi : i < 768)
    (hslot : BitVec.ofNat 10 i ∈ userSlots)
    (hserved : Succeeds m.frames (if start.pde (BitVec.ofNat 10 i) = 0 then 0
      else 2 + pageFrames start (BitVec.ofNat 10 i) 1024)) :
    ∃ next, Fork.copySlot m (pageAt pd) i = some next ∧
      Takes (if start.pde (BitVec.ofNat 10 i) = 0 then 0
        else 2 + pageFrames start (BitVec.ofNat 10 i) 1024) m next := by
  obtain ⟨first, hfirst⟩ := hcopy.first
  obtain ⟨hpass, hopen⟩ := hwork.openTable hcopy hfirst hi hslot
  by_cases hempty : start.pde (BitVec.ofNat 10 i) = 0
  · rw [if_pos hempty]
    exact ⟨m, hpass hempty, .of_frames rfl⟩
  · rw [if_neg hempty] at hserved ⊢
    rcases hopen hempty with ⟨-, hfailed⟩ | ⟨mapped, entry, hcall, hopens⟩
    · exact absurd hfailed (hserved.mono (show 1 ≤ _ by omega)).1
    · have hframe := frameOf_linked entry
      have hplain : Plain mapped (frameOf (entry ||| linkFlags 0 1)) := by
        rw [hframe]
        exact hopens.plain
      have hnew : ¬ Allocated start (frameOf (entry ||| linkFlags 0 1)) := by
        rw [hframe]
        exact hwork.not_allocated hopens.free
      obtain ⟨copied, hentries, htakes⟩ := hopens.work.copyEntries_returns hcopy hfirst
        hplain hnew hi hslot hempty le_rfl (hopens.takes _ (by rwa [Nat.add_comm]))
      obtain ⟨hcopied, -, -⟩ :=
        hopens.work.copyEntries hcopy hfirst hplain hnew hi hslot hempty le_rfl hentries
      obtain ⟨next, hunmap, -, -, hframes⟩ := hcopied.pop (by simp)
      refine ⟨next, ?_, (hopens.takes.trans htakes).trans (.of_frames hframes)⟩
      rw [hcall, hentries, Option.bind_some, hunmap]

theorem Working.copySlots_returns (hwork : Working start newPd [] m)
    (hcopy : Copyable start pd newPd) (hzero : ∀ slot, m.mem newPd slot = 0)
    (hcount : count < 768) (hserved : Succeeds m.frames (copyFrames start count)) :
    ∃ next, Fork.copySlots m (pageAt pd) count = some next ∧
      Takes (copyFrames start count) m next := by
  induction count with
  | zero => exact ⟨m, rfl, .of_frames rfl⟩
  | succ count ih =>
      rw [copyFrames] at hserved ⊢
      obtain ⟨mid, hmid, hmidTakes⟩ := ih (by omega) (hserved.mono (by omega))
      obtain ⟨hmidWork, -⟩ := hwork.copySlots hcopy hzero (by omega) hmid
      have hslot := ofNat_mem_userSlots (Nat.succ_ne_zero count) hcount
      obtain ⟨next, hround, htakes⟩ := hmidWork.copySlot_returns hcopy hcount hslot
        (hmidTakes _ (by rwa [Nat.add_comm]))
      refine ⟨next, ?_, hmidTakes.trans htakes⟩
      simp only [Fork.copySlots, hmid, hround, Option.bind_eq_bind, Option.bind_some]

/-- With enough frames `mapdup_full` returns. -/
theorem Copyable.returns (hcopy : Copyable start pd newPd)
    (hcount : copyFrames start 767 ≤ count) (hserved : Succeeds start.frames count) :
    ∃ next, Fork.mapdupFull start (pageAt pd) = some next := by
  have hshows := hcopy.shows
  have hclear := hshows.clearWords (le_refl 1024)
  rw [overlay_all] at hclear
  have hzero : ∀ slot, (start.setTable newPd fun _ => 0).mem newPd slot = 0 :=
    fun slot => congrFun (setTable_mem_self _ _ _) slot
  have hcleared := hcopy.working.setTable hshows.plain (.inl rfl) fun _ => 0
  obtain ⟨users, husers, -⟩ :=
    hcleared.copySlots_returns hcopy hzero (show 767 < 768 by omega) (hserved.mono hcount)
  obtain ⟨hwork, -⟩ := hcleared.copySlots hcopy hzero (by omega) husers
  obtain ⟨kernel, last, hkernel, hclose, -, -⟩ := hwork.close hcopy
  refine ⟨users.setTable newPd (closedTable users newPd last), ?_⟩
  simp only [Fork.mapdupFull, hclear, husers, hkernel, Option.bind_eq_bind, Option.bind_some]
  exact hclose

/-- `mapdup_full` makes a deep copy of the user half. -/
theorem mapdupFull_copies (m : Machine) {pd : ℕ} {newPd : BitVec 20}
    (hcopy : Copyable m pd newPd) {next : Machine}
    (hcall : Fork.mapdupFull m (pageAt pd) = some next) : Copied m next newPd :=
  (hcopy.mapdupFull hcall).2

/-! ## An address space with one page -/

/-- A directory in frame 1 with a kernel table in frame 2 and a user table in
frame 3.  The only user page lies in frame 4, and page `0xc0000` shows frame 5. -/
def onePage : Machine where
  mem frame index :=
    if frame = 1 then
      if index = 1023 then 0x1001
      else if index = 768 then 0x2001
      else if index = 1 then 0x3007
      else 0
    else if frame = 2 ∧ index = 0 then 0x5011
    else if frame = 3 ∧ index = 0 then 0x4007
    else if frame = 4 then 7
    else 0
  cr3 := 0x1000
  frames := ⟨fun byte => if byte = 0 then 0x3f else 0, 0⟩

theorem onePage_pde (slot : BitVec 10) : onePage.pde slot =
    if slot = 1023 then 0x1001 else if slot = 768 then 0x2001
    else if slot = 1 then 0x3007 else 0 := by
  have hdirectory : onePage.directory = 1 := by decide
  rw [Machine.pde, hdirectory]
  rfl

theorem onePage_slot {slot : BitVec 10} (hslot : slot ∈ lowSlots)
    (hne : onePage.pde slot ≠ 0) :
    slot = 768 ∧ onePage.pde slot = 0x2001 ∨ slot = 1 ∧ onePage.pde slot = 0x3007 := by
  have hlast : slot ≠ 1023 := hslot
  by_cases hkernel : slot = 768
  · subst hkernel
    exact .inl ⟨rfl, by rw [onePage_pde]; rfl⟩
  · by_cases huser : slot = 1
    · subst huser
      exact .inr ⟨rfl, by rw [onePage_pde]; rfl⟩
    · rw [onePage_pde, if_neg hlast, if_neg hkernel, if_neg huser] at hne
      exact absurd rfl hne

theorem onePage_space : AddressSpace onePage := by
  refine ⟨⟨⟨by decide, by decide⟩, ?_, ?_, ?_⟩, ⟨by decide, by decide⟩, ?_⟩
  · intro slot hslot hne
    rcases onePage_slot hslot hne with ⟨-, heq⟩ | ⟨-, heq⟩
    · rw [heq]
      decide
    · rw [heq]
      decide
  · intro slot hslot hne
    rcases onePage_slot hslot hne with ⟨-, heq⟩ | ⟨-, heq⟩
    · rw [heq]
      decide
    · rw [heq]
      decide
  · intro slot hslot other hother hne hne' hframe
    rcases onePage_slot hslot hne with ⟨rfl, heq⟩ | ⟨rfl, heq⟩
    · rcases onePage_slot hother hne' with ⟨rfl, heq'⟩ | ⟨rfl, heq'⟩
      · rfl
      · rw [heq, heq'] at hframe
        exact absurd hframe (by decide)
    · rcases onePage_slot hother hne' with ⟨rfl, heq'⟩ | ⟨rfl, heq'⟩
      · rw [heq, heq'] at hframe
        exact absurd hframe (by decide)
      · rfl
  · intro slot hslot hne
    rcases onePage_slot hslot hne with ⟨-, heq⟩ | ⟨-, heq⟩
    · rw [heq]
      exact ⟨by decide, by decide⟩
    · rw [heq]
      exact ⟨by decide, by decide⟩

theorem onePage_isTable {frame : BitVec 20} (htable : IsTable onePage frame) :
    frame = 2 := by
  obtain ⟨slot, hslot, hne, rfl⟩ := htable
  rcases onePage_slot (kernelSlots_subset hslot) hne with ⟨-, heq⟩ | ⟨rfl, -⟩
  · rw [heq]
    decide
  · exact absurd hslot.1 (by decide)

theorem onePage_entry {slot index : BitVec 10} (hslot : slot ∈ userSlots)
    (hpresent : Paging.present (onePage.entry slot index) = true) :
    slot = 1 ∧ index = 0 ∧ onePage.entry slot index = 0x4007 := by
  obtain ⟨hne, hentry⟩ := entry_of_present hpresent
  rcases onePage_slot (userSlots_subset hslot) hne with ⟨rfl, -⟩ | ⟨rfl, heq⟩
  · exact absurd hslot.2 (by decide)
  · have hword : onePage.entry 1 index = if index = 0 then 0x4007 else 0 := by
      have hframe : frameOf 0x3007 = 3 := by decide
      rw [hentry, heq, hframe]
      by_cases hzero : index = 0
      · rw [hzero]
        rfl
      · simp [onePage]
    by_cases hzero : index = 0
    · rw [if_pos hzero] at hword
      exact ⟨rfl, hzero, hword⟩
    · rw [hword, if_neg hzero] at hpresent
      exact absurd hpresent (by decide)

theorem onePage_copyable : Copyable onePage 0xc0000 5 := by
  have hplain : ∀ frame : BitVec 20, frame ≠ 0 → frame ≠ 1 → frame ≠ 2 →
      onePage.frames.used frame.toNat = true → Plain onePage frame := by
    intro frame hzero hone htwo hused
    exact ⟨⟨hzero, hused⟩, hone, fun htable => htwo (onePage_isTable htable)⟩
  refine ⟨onePage_space, ⟨onePage_space.kernelTables, ⟨by decide, by decide⟩, by decide,
    by decide, hplain 5 (by decide) (by decide) (by decide) (by decide)⟩, ?_, ?_, ?_⟩
  · intro slot hslot hne
    rcases onePage_slot (userSlots_subset hslot) hne with ⟨-, heq⟩ | ⟨-, heq⟩
    · rw [heq]
      decide
    · rw [heq]
      decide
  · intro slot hslot index hpresent
    obtain ⟨-, -, hentry⟩ := onePage_entry hslot hpresent
    have hframe : frameOf 0x4007 = 4 := by decide
    rw [hentry, hframe]
    exact ⟨hplain 4 (by decide) (by decide) (by decide) (by decide), by decide⟩
  · exact ⟨0xc0001, 0xc0002, ⟨by decide, by decide⟩, ⟨by decide, by decide⟩, by decide,
      by decide, by decide⟩

theorem onePage_pageFrames {count : ℕ} (hcount : count ≤ 1024) :
    pageFrames onePage 1 count ≤ 2 ∧ (count = 0 → pageFrames onePage 1 count = 0) := by
  induction count with
  | zero => exact ⟨Nat.zero_le 2, fun _ => rfl⟩
  | succ count ih =>
      obtain ⟨hle, hnone⟩ := ih (by omega)
      refine ⟨?_, by omega⟩
      rw [pageFrames]
      by_cases hpresent : Paging.present (onePage.entry 1 (BitVec.ofNat 10 count)) = true
      · have huser : (1 : BitVec 10) ∈ userSlots := ⟨by decide, by decide⟩
        obtain ⟨-, hindex, -⟩ := onePage_entry huser hpresent
        have hvalue := ofNat_toNat (show count < 1024 by omega)
        rw [hindex] at hvalue
        rw [hnone hvalue.symm, if_pos hpresent]
      · rw [if_neg hpresent]
        exact hle

theorem onePage_copyFrames {count : ℕ} (hcount : count < 768) :
    copyFrames onePage count ≤ 4 ∧ (count = 0 → copyFrames onePage count = 0) := by
  induction count with
  | zero => exact ⟨Nat.zero_le 4, fun _ => rfl⟩
  | succ count ih =>
      obtain ⟨hle, hnone⟩ := ih (by omega)
      refine ⟨?_, by omega⟩
      rw [copyFrames]
      by_cases hempty : onePage.pde (BitVec.ofNat 10 (count + 1)) = 0
      · rw [if_pos hempty]
        exact hle
      · have hslot := ofNat_mem_userSlots (Nat.succ_ne_zero count) hcount
        have hvalue := ofNat_toNat (show count + 1 < 1024 by omega)
        rcases onePage_slot (userSlots_subset hslot) hempty with ⟨heq, -⟩ | ⟨heq, -⟩
        · rw [heq] at hvalue
          change 768 = count + 1 at hvalue
          omega
        · rw [heq] at hvalue
          change 1 = count + 1 at hvalue
          have hpages := (onePage_pageFrames (le_refl 1024)).1
          rw [if_neg hempty, hnone (by omega), heq]
          omega

theorem mapdupFull_copies_onePage :
    ∃ next, Fork.mapdupFull onePage (pageAt 0xc0000) = some next ∧
      Copied onePage next 5 := by
  have hserved : Succeeds onePage.frames 4 := by
    refine ⟨?_, ?_, ?_, ?_, trivial⟩ <;> decide +kernel
  obtain ⟨next, hcall⟩ := onePage_copyable.returns
    (onePage_copyFrames (show 767 < 768 by omega)).1 hserved
  exact ⟨next, hcall, mapdupFull_copies onePage onePage_copyable hcall⟩

end KimisOS.DeepCopy
