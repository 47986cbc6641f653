import KimisOS.Memory.DeepCopy

/-!
# The windows of `fork`

Before `fork` copies the registers it has mapped three pages: one for the new
directory and two for the frames around the stack.  This is the machine at that
point: how it differs from the one before the call, and what the three pages
show.
-/

namespace KimisOS.StackWindow

open KimisOS.Frames
open KimisOS.Paging
open KimisOS.Kmalloc
open KimisOS.Kfree
open KimisOS.Fork
open KimisOS.Effects
open KimisOS.PageBlocks
open KimisOS.FrameWindow
open KimisOS.DeepCopy

/-! ## The first lines of `fork` -/

/-- `fork` up to the copy of the registers: the machine, the address of the new
directory and the pointers to its window and to the one for the registers. -/
def stackWindow (m : Machine) (regs : Registers) :
    Option (Machine × BitVec 32 × BitVec 32 × BitVec 32) := do
  let (frames, newPd) := pmAlloc m.frames
  let (shown, newPdPtr) ←
    kmallocPagePaddr (m.setFrames frames) (BitVec.ofNat 32 newPd) 1
  let copied ← mapdupFull shown newPdPtr
  let paddr ← getPaddr copied regs.esp
  let (mapped, stack) ← kmallocPagePaddr copied (paddr - 4096) 2
  some (mapped, BitVec.ofNat 32 newPd, newPdPtr, stack)

/-- The copy and what follows it. -/
def useWindow (mapped : Machine) (newPdPtr stack : BitVec 32) (regs : Registers) :
    Option Machine := do
  let stored ← storeRegisters mapped stack regs registerWords
  let first ← unmap stored newPdPtr
  let second ← unmap first stack
  unmap second (stack - 0x1000)

theorem forkMemory_eq (m : Machine) (regs : Registers) :
    forkMemory m regs = (stackWindow m regs).bind fun (mapped, newPd, newPdPtr, stack) =>
      (useWindow mapped newPdPtr stack regs).map fun placed => (placed, newPd) := by
  simp only [forkMemory, stackWindow, placeRegisters, useWindow, Option.bind_eq_bind,
    Option.bind_assoc, Option.bind_some, Option.map_eq_bind, Function.comp_def]

/-! ## Two pages at once -/

variable {m : Machine} {page : ℕ}

/-- Where the first page of a lowest pair has no table, the slot is all free and
the pair is its beginning. -/
theorem pair_slotOf {free : ℕ → Prop} (hfit : FirstFit free 2 page)
    (hfree : ∀ other, KernelPage other → slotOf other = slotOf page → free other) :
    slotOf (page + 1) = slotOf page := by
  have hlow := hfit.low
  have hhigh := hfit.high
  have hpage : KernelPage page := ⟨by omega, by omega⟩
  have hnext : KernelPage (page + 1) := ⟨by omega, by omega⟩
  have hslot : ∀ other, KernelPage other → other / 1024 = page / 1024 →
      slotOf other = slotOf page := by
    intro other hother heq
    apply BitVec.eq_of_toNat_eq
    rw [hother.slotOf_toNat, hpage.slotOf_toNat, heq]
  apply hslot _ hnext
  -- the last page of the slot is not the lowest one of a pair
  by_contra hlast
  have hle : page ≤ page - 1 := hfit.le (by omega) (by
    intro j hj
    have hother : KernelPage (page - 1 + j) := ⟨by omega, by omega⟩
    exact hfree _ hother (hslot _ hother (by omega)))
  omega

theorem Free.of_slot {other : ℕ} (huntabled : ¬ Tabled m page)
    (hslot : slotOf other = slotOf page) : Free m other := by
  apply free_of_untabled
  rwa [Tabled, hslot]

/-- The kernel tables once a pair of pages is mapped. -/
structure MapsPair (m next : Machine) (page : ℕ) (paddr : BitVec 32) : Prop where
  tables : KernelTables next
  effect : Effect ∅ m next
  entry : ∀ other, KernelPage other → pageEntry next other =
    if other = page then paddr ||| linkFlags 0 2
    else if other = page + 1 then paddr + 4096 ||| linkFlags 1 2
    else pageEntry m other

/-- `kmalloc_page_paddr` for two pages.  At most one of them lies in a slot
without a table, or both in the same one. -/
theorem kmallocPagePaddr_pair (hm : KernelTables m) (hfit : FirstFit (Free m) 2 page)
    (hroom : IsTable m 0 → Tabled m page ∧ Tabled m (page + 1)) (paddr : BitVec 32) :
    ∃ next, kmallocPagePaddr m paddr 2 = some (next, pageAt page) ∧
      MapsPair m next page paddr := by
  have hlow := hfit.low
  have hhigh := hfit.high
  have hpage : KernelPage page := ⟨by omega, by omega⟩
  have hnext : KernelPage (page + 1) := ⟨by omega, by omega⟩
  have hzero : paddr + BitVec.ofNat 32 0 * 4096 = paddr := by simp
  have hone : paddr + BitVec.ofNat 32 1 * 4096 = paddr + 4096 := by simp
  have hfirstRoom : Tabled m page ∨ ¬ IsTable m 0 := by
    by_cases hnull : IsTable m 0
    · exact .inl (hroom hnull).1
    · exact .inr hnull
  obtain ⟨mid, hmap, hmaps⟩ := hm.map hpage hfirstRoom paddr (linkFlags 0 2)
  have hsecondRoom : Tabled mid (page + 1) ∨ ¬ IsTable mid 0 := by
    by_cases hnull : IsTable m 0
    · exact .inl (hmaps.effect.tabled hnext (hroom hnull).2)
    · by_cases htabled : Tabled m page
      · exact .inr (hmaps.null hnull (.inl htabled))
      · have hslot := pair_slotOf hfit fun other _ => Free.of_slot htabled
        refine .inl ?_
        rw [Tabled, hslot]
        exact hmaps.tabled
  obtain ⟨next, hmap', hmaps'⟩ :=
    hmaps.tables.map hnext hsecondRoom (paddr + 4096) (linkFlags 1 2)
  refine ⟨next, ?_, hmaps'.tables, hmaps.effect.trans hmaps'.effect, ?_⟩
  · simp only [kmallocPagePaddr, searchPages_eq hm.addressable hfit, mapWindow,
      Option.bind_eq_bind, Option.bind_some, Nat.add_zero, hzero, hone, hmap, hmap']
  · intro other hother
    rw [hmaps'.entry other hother]
    by_cases hsecond : other = page + 1
    · have hne : other ≠ page := by omega
      rw [if_pos hsecond, if_neg hne, if_pos hsecond]
    · rw [if_neg hsecond, if_neg hsecond, hmaps.entry other hother]

/-! ## Tables for the pair -/

variable {start : Machine} {newPd : BitVec 20} {pd : ℕ}

/-- If a kernel table had to be put in frame 0, for the pages of the copy, the
pair lies in slots with tables. -/
theorem pair_tabled (hwork : Working start newPd [] m) (hcopy : Copyable start pd newPd)
    (hfit : FirstFit (Free start) 2 page) (hnull : IsTable m 0) :
    Tabled m page ∧ Tabled m (page + 1) := by
  have hspots := hwork.room.resolve_left (not_not.mpr hnull)
  have hlow := hfit.low
  have hhigh := hfit.high
  have hpage : KernelPage page := ⟨by omega, by omega⟩
  have hnext : KernelPage (page + 1) := ⟨by omega, by omega⟩
  have hpageFree : Free start page := hfit.run 0 (by omega)
  have hnextFree : Free start (page + 1) := hfit.run 1 (by omega)
  obtain ⟨slot, hslot, hne, hframe⟩ := hnull
  have hempty : start.pde slot = 0 := by
    by_contra hold
    refine hcopy.space.not_null ⟨slot, hslot, hold, ?_⟩
    rw [← hwork.effect.tables slot hslot hold]
    exact hframe
  obtain ⟨spot, hspot, rfl⟩ := hwork.newTables slot hslot hempty hne
  have huntabled : ¬ Tabled start spot := not_not.mpr hempty
  have hspotPage := hspot.kernelPage
  obtain ⟨hspotLow, hspotHigh⟩ := id hspotPage
  have hslotFree : ∀ other, KernelPage other → other / 1024 = spot / 1024 →
      Free start other ∧ Tabled m other := by
    intro other hother heq
    have hsame : slotOf other = slotOf spot := by
      apply BitVec.eq_of_toNat_eq
      rw [hother.slotOf_toNat, hspotPage.slotOf_toNat, heq]
    refine ⟨Free.of_slot huntabled hsame, ?_⟩
    rwa [Tabled, hsame]
  have hbelow : page ≤ spot / 1024 * 1024 := by
    apply hfit.le (by omega)
    intro j hj
    exact (hslotFree _ ⟨by omega, by omega⟩ (by omega)).1
  obtain ⟨first, hfirst⟩ := hcopy.first
  have hfirstLe : first ≤ page := hfirst.le_of_free hpage hpageFree
  by_cases hsame : page = first
  · -- the pair begins with the first page; the next one is the second page
    subst hsame
    have hsecond : FirstFit (fun other => Free start other ∧ other ≠ page) 1 (page + 1) := by
      refine ⟨by omega, by omega, ?_, ?_⟩
      · intro j hj
        obtain rfl : j = 0 := by omega
        exact ⟨hnextFree, by omega⟩
      · intro other hother hlt
        refine ⟨0, by omega, ?_⟩
        rintro ⟨hfree, hne'⟩
        have hle := hfirst.le_of_free ⟨hother, by omega⟩ hfree
        omega
    exact ⟨hspots page (.inl hfirst), hspots (page + 1) (.inr ⟨page, hfirst, hsecond⟩)⟩
  · -- the slot holds both pages
    have hspotLe : spot ≤ page := by
      rcases hspot with hspotFirst | ⟨first', hfirst', hspotSecond⟩
      · obtain rfl := hspotFirst.unique hfirst
        exact hfirstLe
      · obtain rfl := hfirst'.unique hfirst
        exact hspotSecond.le_of_free hpage ⟨hpageFree, hsame⟩
    exact ⟨(hslotFree page hpage (by omega)).2, (hslotFree (page + 1) hnext (by omega)).2⟩

/-! ## The machine before the copy -/

/-- What `fork` finds: the frames in use are allocated, `pm_alloc` has one for
the directory and, where its window needs it, for a page table, and there is
room for the windows: page `home` for the directory and, beside it, the pair
from `page` on. -/
structure Forkable (m : Machine) (home page : ℕ) : Prop where
  space : AddressSpace m
  pages : ∀ slot ∈ userSlots, ∀ index, present (m.entry slot index) = true →
    Plain m (frameOf (m.entry slot index))
  served : (pmAlloc m.frames).2 ≠ 0
  first : FirstFit (Free m) 1 home
  spares : Spares (m.setFrames (pmAlloc m.frames).1) home
  pair : FirstFit (fun other => Free m other ∧ other ≠ home) 2 page

/-- The machine when the registers are copied, by what it shares with the one
before the call and by the pages that are mapped since. -/
structure StackMapped (m mapped : Machine) (home page : ℕ) (paddr : BitVec 32) :
    Prop where
  tables : KernelTables mapped
  effect : Effect ∅ m mapped
  homeTabled : Tabled mapped home
  first : pageEntry mapped page = paddr ||| linkFlags 0 2
  second : pageEntry mapped (page + 1) = paddr + 4096 ||| linkFlags 1 2
  others : ∀ other, KernelPage other → Free m other → other ≠ home → other ≠ page →
    other ≠ page + 1 → Free mapped other

variable {home : ℕ}

theorem Forkable.order (hready : Forkable m home page) :
    0xc0000 ≤ home ∧ home < page ∧ page + 2 ≤ 0xffc00 := by
  have hlow := hready.pair.low
  have hhigh := hready.pair.high
  obtain ⟨hfree, hne⟩ := hready.pair.run 0 (by omega)
  have hle := hready.first.le_of_free ⟨hlow, by omega⟩ hfree
  refine ⟨hready.first.low, ?_, by omega⟩
  omega

/-- The window of the new directory, in which `mapdup_full` can copy. -/
theorem Forkable.copyable (hready : Forkable m home page) :
    ∃ shown, kmallocPagePaddr (m.setFrames (pmAlloc m.frames).1)
        (BitVec.ofNat 32 (pmAlloc m.frames).2) 1 = some (shown, pageAt home) ∧
      Copyable shown home m.nextFrame ∧ Effect ∅ m shown ∧
      (∀ other, KernelPage other → (Free shown other ↔ Free m other ∧ other ≠ home)) ∧
      ∀ other, KernelPage other → other ≠ home →
        pageEntry shown other = pageEntry m other := by
  obtain ⟨hlow, hhome, hhigh⟩ := hready.order
  have htake : Effect ∅ m (m.setFrames (pmAlloc m.frames).1) := effect_takeFrame ∅ m
  have htaken := hready.space.next hready.space.kernelTables.takeFrame
    hready.space.not_null htake
  obtain ⟨hfree, hplain⟩ := hready.space.kernelTables.plain_takeFrame hready.served
  have hfit : FirstFit (Free (m.setFrames (pmAlloc m.frames).1)) 1 home := hready.first
  obtain ⟨shown, hcall, hmaps⟩ := htaken.kernelTables.kmallocPagePaddr hfit
    (.inr htaken.not_null) (BitVec.ofNat 32 (pmAlloc m.frames).2)
  have hshown := htaken.next hmaps.tables (hmaps.null htaken.not_null hready.spares)
    hmaps.effect
  have heffect := htake.trans hmaps.effect
  have hkernelHome : KernelPage home := hready.first.kernelPage
  have hpresent := present_linkFlags (BitVec.ofNat 32 (pmAlloc m.frames).2) 0 1
  have hhomeEntry : pageEntry shown home =
      BitVec.ofNat 32 (pmAlloc m.frames).2 ||| linkFlags 0 1 := by
    rw [hmaps.entry home hkernelHome, if_pos rfl]
  have hold : ∀ other, KernelPage other → other ≠ home →
      pageEntry shown other = pageEntry m other := by
    intro other hother hne
    rw [hmaps.entry other hother, if_neg hne]
    rfl
  have hiff : ∀ other, KernelPage other →
      (Free shown other ↔ Free m other ∧ other ≠ home) := by
    intro other hother
    by_cases hsame : other = home
    · subst hsame
      exact iff_of_false (not_free_of_present hhomeEntry hpresent) fun h => h.2 rfl
    · rw [Free, hold other hother hsame]
      exact ⟨fun h => ⟨h, hsame⟩, fun h => h.1⟩
  refine ⟨shown, hcall, ⟨hshown, ?_, ?_, ?_, ?_⟩, heffect, hiff, hold⟩
  · refine ⟨hmaps.tables, hkernelHome, ?_, ?_, hmaps.effect.plain hplain⟩
    · rw [hhomeEntry]
      exact hpresent
    · rw [hhomeEntry]
      exact frameOf_linked _
  · intro slot hslot hne
    rw [heffect.slots slot (not_kernelSlot hslot)] at hne ⊢
    exact (hready.space.tables slot (userSlots_subset hslot) hne).ne hfree
  · intro slot hslot index hpage
    have hentry : shown.entry slot index = m.entry slot index := by
      refine heffect.entry (not_kernelSlot hslot) ?_ index
      intro hne
      exact ⟨hready.space.plain (userSlots_subset hslot) (not_kernelSlot hslot) hne,
        Set.notMem_empty _⟩
    rw [hentry] at hpage ⊢
    have hplainPage := hready.pages slot hslot index hpage
    exact ⟨heffect.plain hplainPage, hplainPage.allocated.ne hfree⟩
  · have hpage : KernelPage page := ⟨by omega, by omega⟩
    have hnext : KernelPage (page + 1) := ⟨by omega, by omega⟩
    exact ⟨page, page + 1, hpage, hnext, by omega,
      (hiff page hpage).mpr (hready.pair.run 0 (by omega)),
      (hiff (page + 1) hnext).mpr (hready.pair.run 1 (by omega))⟩

/-- Until the registers are copied `fork` has changed nothing but the kernel
half and frames it has got from `pm_alloc`. -/
theorem Forkable.stackWindow (hready : Forkable m home page) {regs : Registers}
    {mapped : Machine} {newPd newPdPtr stack : BitVec 32}
    (hcall : StackWindow.stackWindow m regs = some (mapped, newPd, newPdPtr, stack)) :
    newPdPtr = pageAt home ∧ stack = pageAt page ∧
      ∃ paddr, StackMapped m mapped home page paddr := by
  obtain ⟨shown, hshow, hcopy, hshowing, hshownFree, -⟩ := hready.copyable
  obtain ⟨hlow, hhome, hhigh⟩ := hready.order
  simp only [StackWindow.stackWindow, hshow, Option.bind_eq_bind, Option.bind_some,
    Option.bind_eq_some_iff] at hcall
  obtain ⟨copied, hcopied, paddr, -, ⟨pairMapped, pairPtr⟩, hpair, hresult⟩ := hcall
  obtain ⟨hwork, -⟩ := hcopy.mapdupFull hcopied
  have hiff : ∀ other, KernelPage other →
      (Free copied other ↔ Free m other ∧ other ≠ home) := by
    intro other hother
    rw [hwork.free other hother, Untaken, hshownFree other hother]
    simp
  have hshownFit : FirstFit (Free shown) 2 page :=
    hready.pair.congr fun other hother => hshownFree other hother
  have hfit : FirstFit (Free copied) 2 page :=
    hready.pair.congr fun other hother => hiff other hother
  obtain ⟨mapped', hmapped, hmaps⟩ := kmallocPagePaddr_pair hwork.tables hfit
    (fun hnull => pair_tabled hwork hcopy hshownFit hnull) (paddr - 4096)
  rw [hmapped] at hpair
  obtain ⟨rfl, rfl⟩ := Prod.mk.inj (Option.some.inj hpair)
  simp only [Option.some.injEq, Prod.mk.injEq] at hresult
  obtain ⟨rfl, -, rfl, rfl⟩ := hresult
  have hpage : KernelPage page := ⟨by omega, by omega⟩
  have hnext : KernelPage (page + 1) := ⟨by omega, by omega⟩
  obtain ⟨hfree, -⟩ := hready.space.kernelTables.plain_takeFrame hready.served
  refine ⟨rfl, rfl, paddr - 4096, hmaps.tables, ?_, ?_, ?_, ?_, ?_⟩
  · refine (hshowing.extend hwork.effect ?_).trans hmaps.effect
    rintro frame rfl
    exact .inr ⟨hfree, hcopy.shows.plain.allocated.used⟩
  · have hkernelHome := hready.first.kernelPage
    exact hmaps.effect.tabled hkernelHome (hwork.effect.tabled hkernelHome
      (tabled_of_present rfl hcopy.shows.present))
  · rw [hmaps.entry page hpage, if_pos rfl]
  · rw [hmaps.entry (page + 1) hnext, if_neg (by omega), if_pos rfl]
  · intro other hother hotherFree hneHome hnePage hneNext
    rw [Free, hmaps.entry other hother, if_neg hnePage, if_neg hneNext]
    exact (hiff other hother).mpr ⟨hotherFree, hneHome⟩

end KimisOS.StackWindow
