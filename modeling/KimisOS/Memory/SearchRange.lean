import KimisOS.Memory.Exhaustion

/-!
# Where the search for kernel pages ends

The search of `kmalloc` and `kmalloc_page_paddr` starts at page `0xc0000` and
runs to `1 << 22`, although page numbers have 20 bits: behind the kernel pages
it goes on through the window of the page tables, where an empty slot looks
like a free page, and then through the user pages.
-/

namespace KimisOS.SearchRange

open KimisOS.Frames
open KimisOS.Paging
open KimisOS.Kmalloc
open KimisOS.Fork
open KimisOS.Exhaustion

/-! ## What callers rely on -/

/-- A directory that is in use and names itself in slot 1023 only; its other
entries are empty or present. -/
structure Walkable (m : Machine) : Prop where
  recursive : Recursive m
  present : ∀ slot, m.pde slot ≠ 0 → present (m.pde slot) = true
  notDirectory : ∀ slot, slot ≠ 1023 → m.pde slot ≠ 0 →
    frameOf (m.pde slot) ≠ m.directory
  used : m.frames.used m.directory.toNat = true
  notNull : m.directory ≠ 0

/-- The pages from one on are all unmapped. -/
def Run (m : Machine) (sizePgs page : ℕ) : Prop := ∀ j < sizePgs, Free m (page + j)

instance (m : Machine) (sizePgs page : ℕ) : Decidable (Run m sizePgs page) :=
  inferInstanceAs (Decidable (∀ j < sizePgs, Free m (page + j)))

/-- A run of unmapped pages inside the kernel window. -/
def HasRun (m : Machine) (sizePgs : ℕ) : Prop :=
  ∃ page, 0xc0000 ≤ page ∧ page + sizePgs ≤ 0xffc00 ∧ Run m sizePgs page

/-- No run anywhere in the address space, around its end or not. -/
def NoRun (m : Machine) (sizePgs : ℕ) : Prop := ∀ page, ¬ Run m sizePgs page

/-- The pages behind an address lie in the kernel window. -/
def Inside (addr : BitVec 32) (sizePgs : ℕ) : Prop :=
  0xc0000000 ≤ addr.toNat ∧ addr.toNat + sizePgs * 4096 ≤ 0xffc00000

/-- `kmalloc_page_paddr` comes to `map` with the page. -/
def MapsNamed (m : Machine) (paddr : BitVec 32) (sizePgs page : ℕ) : Prop :=
  ∃ i k mid, searchPages m sizePgs = some (some i) ∧ k < sizePgs ∧
    mapWindow m i sizePgs paddr k = some mid ∧ page = (i + k) % 2 ^ 20

/-- `kmalloc` comes to `map` with the page. -/
def MapsFresh (m : Machine) (sizePgs page : ℕ) : Prop :=
  ∃ i k mid, searchPages m sizePgs = some (some i) ∧ k < sizePgs ∧
    mapFresh m i sizePgs k = some (mid, true) ∧ (pmAlloc mid.frames).2 ≠ 0 ∧
    page = (i + k) % 2 ^ 20

/-- What both calls return lies in the kernel window, and so do the pages they
write; without room there they return 0. -/
structure StaysInWindow (m : Machine) (sizePgs : ℕ) : Prop where
  named : ∀ paddr next addr,
    kmallocPagePaddr m paddr sizePgs = some (next, addr) → addr ≠ 0 →
      Inside addr sizePgs
  fresh : ∀ next addr, kmallocPages m sizePgs = some (next, addr) → addr ≠ 0 →
    Inside addr sizePgs
  none : ¬ HasRun m sizePgs →
    (∀ paddr, ∃ next, kmallocPagePaddr m paddr sizePgs = some (next, 0)) ∧
      ∃ next, kmallocPages m sizePgs = some (next, 0)
  mapsNamed : ∀ paddr page, MapsNamed m paddr sizePgs page → KernelPage page
  mapsFresh : ∀ page, MapsFresh m sizePgs page → KernelPage page

/-! ## The search over all pages -/

variable {m : Machine} {page sizePgs : ℕ}

theorem Walkable.getPflags (hm : Walkable m) (page : ℕ) :
    Paging.getPflags m (pageAt page) = some (pageEntry m page &&& 0xfff) := by
  simp only [Paging.getPflags, getEntry, load_pdAddress hm.recursive,
    Option.bind_eq_bind, Option.bind_some, pageEntry, Machine.entry]
  by_cases hempty : m.pde (pdIndex (pageAt page)) = 0
  · rw [if_pos hempty, slotOf, if_pos hempty]
    rfl
  · rw [if_neg hempty, slotOf, if_neg hempty,
      load_ptAddress hm.recursive (hm.present _ hempty)]
    rfl

theorem Walkable.pagesFree (hm : Walkable m) (page count : ℕ) :
    ∃ found, Kmalloc.pagesFree m page count = some found ∧
      (found = true ↔ Run m count page) := by
  induction count generalizing page with
  | zero => exact ⟨true, rfl, iff_of_true rfl fun j hj => by omega⟩
  | succ count ih =>
      simp only [Kmalloc.pagesFree, hm.getPflags, Option.bind_eq_bind,
        Option.bind_some]
      by_cases hfirst : Free m page
      · obtain ⟨found, hrest, hfound⟩ := ih (page + 1)
        refine ⟨found, (if_neg (not_not.mpr hfirst)).trans hrest, hfound.trans ?_⟩
        constructor
        · intro hrun j hj
          cases j with
          | zero => exact hfirst
          | succ j =>
              have hnext := hrun j (by omega)
              rwa [show page + 1 + j = page + (j + 1) by omega] at hnext
        · intro hrun j hj
          have hnext := hrun (j + 1) (by omega)
          rwa [show page + (j + 1) = page + 1 + j by omega] at hnext
      · refine ⟨false, if_pos hfirst, iff_of_false (by decide) ?_⟩
        intro hrun
        exact hfirst (hrun 0 (by omega))

theorem Walkable.pagesFree_true (hm : Walkable m) :
    Kmalloc.pagesFree m page sizePgs = some true ↔ Run m sizePgs page := by
  obtain ⟨found, hfree, hrun⟩ := hm.pagesFree page sizePgs
  rw [hfree, Option.some.injEq, hrun]

theorem Walkable.pagesFree_false (hm : Walkable m) :
    Kmalloc.pagesFree m page sizePgs = some false ↔ ¬ Run m sizePgs page := by
  obtain ⟨found, hfree, hrun⟩ := hm.pagesFree page sizePgs
  rw [hfree, Option.some.injEq, ← hrun, Bool.not_eq_true]

theorem Walkable.findPages_none (hm : Walkable m) (hnone : NoRun m sizePgs)
    (rounds i : ℕ) : findPages m sizePgs rounds i = some none := by
  induction rounds generalizing i with
  | zero => rfl
  | succ rounds ih =>
      simp only [findPages, hm.pagesFree_false.mpr (hnone i), Option.bind_eq_bind,
        Option.bind_some, Bool.false_eq_true, if_false]
      exact ih (i + 1)

/-- Page numbers have 20 bits. -/
theorem pageAt_mod (page : ℕ) : pageAt (page % 2 ^ 20) = pageAt page := by
  apply BitVec.eq_of_toNat_eq
  simp only [pageAt, BitVec.toNat_shiftLeft, BitVec.toNat_ofNat, Nat.shiftLeft_eq]
  omega

theorem run_congr {other : ℕ} (hsame : page % 2 ^ 20 = other % 2 ^ 20) :
    Run m sizePgs page ↔ Run m sizePgs other := by
  have hpage : ∀ j, pageAt (page + j) = pageAt (other + j) := by
    intro j
    rw [← pageAt_mod (page + j), ← pageAt_mod (other + j), Nat.add_mod, hsame,
      ← Nat.add_mod]
  have hfree : ∀ j, Free m (page + j) ↔ Free m (other + j) := by
    intro j
    simp only [Free, pageEntry, slotOf, indexOf, hpage]
  exact forall₂_congr fun j _ => hfree j

/-- A run anywhere is met before `1 << 22`. -/
theorem Walkable.firstRun (hm : Walkable m) (hsome : ¬ NoRun m sizePgs) :
    ∃ page, FirstRun m sizePgs page := by
  rw [NoRun, not_forall_not] at hsome
  obtain ⟨run, hrun⟩ := hsome
  have hahead : ∃ page, 0xc0000 ≤ page ∧ Run m sizePgs page := by
    refine ⟨run % 2 ^ 20 + 2 ^ 20, by omega, ?_⟩
    exact (run_congr (by omega)).mpr hrun
  refine ⟨Nat.find hahead, ?_⟩
  obtain ⟨hlow, hfound⟩ := Nat.find_spec hahead
  have hbound : Nat.find hahead ≤ run % 2 ^ 20 + 2 ^ 20 :=
    Nat.find_min' hahead ⟨by omega, (run_congr (by omega)).mpr hrun⟩
  refine ⟨hlow, by omega, hm.pagesFree_true.mpr hfound, ?_⟩
  intro other hother hlt
  apply hm.pagesFree_false.mpr
  intro hearlier
  exact Nat.find_min hahead hlt ⟨hother, hearlier⟩

/-! ## Mapping kernel pages -/

/-- `pm_alloc` never returns the directory. -/
theorem Walkable.nextFrame (hm : Walkable m) : m.nextFrame ≠ m.directory := by
  intro heq
  by_cases hserved : (pmAlloc m.frames).2 = 0
  · rw [Machine.nextFrame, hserved] at heq
    exact hm.notNull heq.symm
  · have hfree := (pmAlloc_fresh hserved).1
    rw [Machine.nextFrame] at heq
    rw [heq, hm.used] at hfree
    cases hfree

theorem Walkable.tabled (hm : Walkable m) {slot : BitVec 10}
    (hempty : m.pde slot = 0) : Walkable (m.tabled slot) := by
  have hpde := tabled_pde hm.nextFrame slot
  constructor
  · rw [Recursive, hpde, if_neg (hm.recursive.ne_last hempty).symm]
    exact hm.recursive
  · intro other hne
    rw [hpde] at hne ⊢
    by_cases hnew : other = slot
    · rw [if_pos hnew, present_or]
      simp [Paging.present]
    · rw [if_neg hnew] at hne ⊢
      exact hm.present other hne
  · intro other hother hne
    change _ ≠ m.directory
    rw [hpde] at hne ⊢
    by_cases hnew : other = slot
    · rw [if_pos hnew, frameOf_newEntry]
      exact hm.nextFrame
    · rw [if_neg hnew] at hne ⊢
      exact hm.notDirectory other hother hne
  · exact used_pmAlloc m.frames hm.used
  · exact hm.notNull

theorem Walkable.newTable (hm : Walkable m) (slot : BitVec 10) :
    ∃ next, Paging.newTable m slot = some next ∧ Walkable next ∧
      next.pde slot ≠ 0 := by
  by_cases hempty : m.pde slot = 0
  · exact ⟨_, newTable_of_eq hm.recursive hempty hm.nextFrame, hm.tabled hempty,
      tabled_ne_zero hm.nextFrame slot⟩
  · exact ⟨m, newTable_of_ne hm.recursive hempty, hm, hempty⟩

/-- A word in a table that is not the directory. -/
theorem Walkable.setWord (hm : Walkable m) {frame : BitVec 20}
    (hframe : frame ≠ m.directory) (index : BitVec 10) (word : BitVec 32) :
    Walkable (m.setWord frame index word) := by
  have hpde : ∀ slot, (m.setWord frame index word).pde slot = m.pde slot :=
    setTable_pde hframe _
  constructor
  · rw [Recursive, hpde]
    exact hm.recursive
  · intro slot hne
    rw [hpde] at hne ⊢
    exact hm.present slot hne
  · intro slot hslot hne
    rw [hpde] at hne ⊢
    exact hm.notDirectory slot hslot hne
  · exact hm.used
  · exact hm.notNull

theorem ne_last_of_kernelSlot {slot : BitVec 10} (hslot : slot ∈ kernelSlots) :
    slot ≠ 1023 := by
  rintro rfl
  exact absurd hslot.2 (by decide)

theorem Walkable.map (hm : Walkable m) (hpage : KernelPage page)
    (paddr flags : BitVec 32) :
    ∃ next, Paging.map m (pageAt page) paddr flags = some next ∧ Walkable next := by
  have hslot : pdIndex (pageAt page) ∈ kernelSlots := hpage.slotOf_mem
  obtain ⟨tabled, htabled, hwalk, hne⟩ := hm.newTable (pdIndex (pageAt page))
  refine ⟨_, ?_, hwalk.setWord (hwalk.notDirectory _ (ne_last_of_kernelSlot hslot) hne)
    (ptIndex (pageAt page)) (paddr ||| flags)⟩
  simp only [Paging.map, htabled, widen_eq hwalk.recursive,
    not_user_of_kernelSlot hslot, and_false, if_false, Option.bind_eq_bind,
    Option.bind_some]
  exact store_ptAddress hwalk.recursive (hwalk.present _ hne) _ _

/-- The loop of `kmalloc_page_paddr` over pages of the window. -/
theorem Walkable.mapWindow (hm : Walkable m) (sizePgs : ℕ) (paddr : BitVec 32)
    (count : ℕ) (hlow : 0xc0000 ≤ page) (hhigh : page + count ≤ 0xffc00) :
    ∃ next, Kmalloc.mapWindow m page sizePgs paddr count = some next ∧
      Walkable next := by
  induction count with
  | zero => exact ⟨m, rfl, hm⟩
  | succ count ih =>
      obtain ⟨mid, hmid, hwalk⟩ := ih (by omega)
      have hpage : KernelPage (page + count) := ⟨by omega, by omega⟩
      obtain ⟨next, hmap, hnext⟩ := hwalk.map hpage
        (paddr + BitVec.ofNat 32 count * 4096) (linkFlags count sizePgs)
      refine ⟨next, ?_, hnext⟩
      simp only [Kmalloc.mapWindow, hmid, Option.bind_eq_bind, Option.bind_some, hmap]

/-! ## When the search stays in the window -/

theorem kmallocPagePaddr_found (hrun : FirstRun m sizePgs page) (paddr : BitVec 32) :
    kmallocPagePaddr m paddr sizePgs =
      (Kmalloc.mapWindow m page sizePgs paddr sizePgs).map fun mapped =>
        (mapped, pageAt page) := by
  simp only [kmallocPagePaddr, (searchPages_iff m sizePgs page).mpr hrun,
    Option.bind_eq_bind, Option.bind_some]
  cases Kmalloc.mapWindow m page sizePgs paddr sizePgs with
  | none => rfl
  | some mapped => rfl

theorem inside_pageAt (hlow : 0xc0000 ≤ page) (hhigh : page + sizePgs ≤ 0xffc00)
    (hpos : 0 < sizePgs) : Inside (pageAt page) sizePgs := by
  have hpage : KernelPage page := ⟨hlow, by omega⟩
  rw [Inside, hpage.pageAt_toNat]
  omega

/-- A first run inside the window. -/
theorem staysInWindow_of_firstRun (hrun : FirstRun m sizePgs page) (hpos : 0 < sizePgs)
    (hhigh : page + sizePgs ≤ 0xffc00) (hroom : HasRun m sizePgs) :
    StaysInWindow m sizePgs := by
  have hlow := hrun.low
  have hinside := inside_pageAt hlow hhigh hpos
  have hsearch := (searchPages_iff m sizePgs page).mpr hrun
  have hkernel : ∀ i k, searchPages m sizePgs = some (some i) → k < sizePgs →
      KernelPage ((i + k) % 2 ^ 20) := by
    intro i k hfound hk
    rw [hsearch] at hfound
    obtain rfl : page = i := by simpa using hfound
    rw [Nat.mod_eq_of_lt (by omega)]
    exact ⟨by omega, by omega⟩
  constructor
  · intro paddr next addr hcall _
    rw [kmallocPagePaddr_found hrun] at hcall
    obtain ⟨mapped, -, hresult⟩ := Option.map_eq_some_iff.mp hcall
    obtain ⟨-, rfl⟩ := Prod.mk.inj hresult
    exact hinside
  · intro next addr hcall hne
    rw [kmallocPages_found hrun] at hcall
    obtain ⟨⟨mapped, served⟩, -, hresult⟩ := Option.map_eq_some_iff.mp hcall
    obtain ⟨-, rfl⟩ := Prod.mk.inj hresult
    cases served with
    | true => exact hinside
    | false => exact absurd rfl hne
  · intro hnone
    exact absurd hroom hnone
  · rintro paddr other ⟨i, k, mid, hfound, hk, -, rfl⟩
    exact hkernel i k hfound hk
  · rintro other ⟨i, k, mid, hfound, hk, -, -, rfl⟩
    exact hkernel i k hfound hk

/-- Without a run nothing is mapped. -/
theorem Walkable.staysInWindow (hm : Walkable m) (hnone : NoRun m sizePgs) :
    StaysInWindow m sizePgs := by
  have hsearch : searchPages m sizePgs = some none := hm.findPages_none hnone _ _
  have hnamed : ∀ paddr, kmallocPagePaddr m paddr sizePgs = some (m, 0) := by
    intro paddr
    simp only [kmallocPagePaddr, hsearch, Option.bind_eq_bind, Option.bind_some]
  have hfresh : kmallocPages m sizePgs = some (m, 0) := by
    simp only [kmallocPages, hsearch, Option.bind_eq_bind, Option.bind_some]
  constructor
  · intro paddr next addr hcall hne
    rw [hnamed] at hcall
    obtain ⟨-, rfl⟩ := Prod.mk.inj (Option.some.inj hcall)
    exact absurd rfl hne
  · intro next addr hcall hne
    rw [hfresh] at hcall
    obtain ⟨-, rfl⟩ := Prod.mk.inj (Option.some.inj hcall)
    exact absurd rfl hne
  · intro _
    exact ⟨fun paddr => ⟨m, hnamed paddr⟩, m, hfresh⟩
  · rintro paddr other ⟨i, k, mid, hfound, -⟩
    rw [hsearch] at hfound
    simp at hfound
  · rintro other ⟨i, k, mid, hfound, -⟩
    rw [hsearch] at hfound
    simp at hfound

/-- A run that is not inside the window has a page outside it, which the loop
of `kmalloc_page_paddr` comes to. -/
theorem StaysInWindow.room (hstays : StaysInWindow m sizePgs) (hm : Walkable m)
    (hrun : FirstRun m sizePgs page) (hpos : 0 < sizePgs) : HasRun m sizePgs := by
  have hlow := hrun.low
  have hfree := hm.pagesFree_true.mp hrun.free
  have hsearch := (searchPages_iff m sizePgs page).mpr hrun
  by_contra hnone
  have hhigh : 0xffc00 < page + sizePgs := by
    by_contra hinside
    exact hnone ⟨page, hlow, by omega, hfree⟩
  by_cases hstart : page < 0xffc00
  · -- the run crosses the end of the window
    obtain ⟨mid, hmid, -⟩ := hm.mapWindow sizePgs 0 (0xffc00 - page) hlow (by omega)
    have hlast := hstays.mapsNamed 0 _
      ⟨page, 0xffc00 - page, mid, hsearch, by omega, hmid, rfl⟩
    rw [Nat.add_sub_cancel' hstart.le] at hlast
    exact absurd hlast.2 (by decide)
  · -- it starts behind the window
    have hfirst := hstays.mapsNamed 0 _ ⟨page, 0, m, hsearch, hpos, rfl, rfl⟩
    rw [Nat.add_zero] at hfirst
    obtain ⟨hfirstLow, hfirstHigh⟩ := hfirst
    have hearlier : Run m sizePgs (page % 2 ^ 20) :=
      (run_congr (Nat.mod_mod page (2 ^ 20))).mpr hfree
    have hused := hrun.lowest _ hfirstLow (by omega)
    exact hm.pagesFree_false.mp hused hearlier

/-- Both calls stay in the kernel window exactly when it has a run of pages for
them, or the whole address space has none. -/
theorem staysInWindow_iff (m : Machine) (sizePgs : ℕ) (hm : Walkable m)
    (hpos : 0 < sizePgs) :
    StaysInWindow m sizePgs ↔ HasRun m sizePgs ∨ NoRun m sizePgs := by
  constructor
  · intro hstays
    by_cases hnone : NoRun m sizePgs
    · exact .inr hnone
    · obtain ⟨page, hrun⟩ := hm.firstRun hnone
      exact .inl (hstays.room hm hrun hpos)
  · rintro (hroom | hnone)
    · obtain ⟨run, hlow, hhigh, hfree⟩ := hroom
      obtain ⟨page, hrun⟩ := hm.firstRun fun hnone => hnone run hfree
      have hle : page ≤ run := by
        by_contra hlt
        exact hm.pagesFree_false.mp (hrun.lowest run hlow (by omega)) hfree
      exact staysInWindow_of_firstRun hrun hpos (by omega) ⟨run, hlow, hhigh, hfree⟩
    · exact hm.staysInWindow hnone

/-! ## A full window -/

/-- A directory in frame 1 whose kernel slots all have full tables, each in
the frame of its slot's number; the user slots are empty. -/
def fullWindow : Machine where
  mem frame index :=
    if frame = 1 then
      if index = 1023 then 0x1001
      else if 768 ≤ index.toNat then pageAddress (index.setWidth 20) ||| 1
      else 0
    else 0x500001
  cr3 := 0x1000
  frames := ⟨fun _ => 0xff, 0x1ffff⟩

theorem fullWindow_pde (slot : BitVec 10) (hlast : slot ≠ 1023) :
    fullWindow.pde slot =
      if 768 ≤ slot.toNat then pageAddress (slot.setWidth 20) ||| 1 else 0 := by
  have hdirectory : fullWindow.directory = 1 := by decide
  rw [Machine.pde, hdirectory]
  simp only [fullWindow, if_true, if_neg hlast]

theorem fullWindow_kernel {slot : BitVec 10} (hslot : 768 ≤ slot.toNat)
    (hlast : slot ≠ 1023) :
    present (fullWindow.pde slot) = true ∧
      frameOf (fullWindow.pde slot) = slot.setWidth 20 ∧
      frameOf (fullWindow.pde slot) ≠ 1 := by
  have hframe : frameOf (fullWindow.pde slot) = slot.setWidth 20 := by
    rw [fullWindow_pde slot hlast, if_pos hslot,
      frameOf_or_flags _ (show (1 : BitVec 32) < 0x1000 by decide),
      frameOf_pageAddress]
  refine ⟨?_, hframe, ?_⟩
  · rw [fullWindow_pde slot hlast, if_pos hslot, present_or]
    simp [present]
  · rw [hframe]
    intro heq
    have hvalue := congrArg BitVec.toNat heq
    have hlt := slot.isLt
    rw [BitVec.toNat_setWidth, Nat.mod_eq_of_lt (by omega)] at hvalue
    have hone : (1 : BitVec 20).toNat = 1 := rfl
    omega

theorem fullWindow_walkable : Walkable fullWindow := by
  have hdirectory : fullWindow.directory = 1 := by decide
  have hused : ∀ slot, slot ≠ 1023 → fullWindow.pde slot ≠ 0 → 768 ≤ slot.toNat := by
    intro slot hlast hne
    by_contra huser
    rw [fullWindow_pde slot hlast, if_neg huser] at hne
    exact hne rfl
  constructor
  · exact ⟨by decide, by decide⟩
  · intro slot hne
    by_cases hlast : slot = 1023
    · subst hlast
      decide
    · exact (fullWindow_kernel (hused slot hlast hne) hlast).1
  · intro slot hlast hne
    rw [hdirectory]
    exact (fullWindow_kernel (hused slot hlast hne) hlast).2.2
  · decide
  · decide

/-- Every kernel page is mapped. -/
theorem fullWindow_used (hpage : KernelPage page) : ¬ Free fullWindow page := by
  have hslot := hpage.slotOf_mem
  have hlast := ne_last_of_kernelSlot hslot
  obtain ⟨hpresent, -, hframe⟩ := fullWindow_kernel hslot.1 hlast
  have hne : fullWindow.pde (slotOf page) ≠ 0 := by
    intro hempty
    rw [hempty] at hpresent
    cases hpresent
  have hword : fullWindow.mem (frameOf (fullWindow.pde (slotOf page)))
      (indexOf page) = 0x500001 := if_neg hframe
  rw [Free, pageEntry, Machine.entry, if_neg hne, hword]
  decide

/-- The empty slot 0 looks like a free page. -/
theorem fullWindow_run : Run fullWindow 1 0xffc00 := by
  intro j hj
  obtain rfl : j = 0 := by omega
  decide

theorem staysInWindow_fullWindow :
    0 < 1 ∧ (StaysInWindow fullWindow 1 ↔ HasRun fullWindow 1 ∨ NoRun fullWindow 1) :=
  ⟨by decide, staysInWindow_iff fullWindow 1 fullWindow_walkable (by decide)⟩

theorem kmalloc_leaves_window : Walkable fullWindow ∧ ¬ StaysInWindow fullWindow 1 := by
  refine ⟨fullWindow_walkable, ?_⟩
  intro hstays
  obtain ⟨page, hrun⟩ :=
    fullWindow_walkable.firstRun fun hnone => hnone 0xffc00 fullWindow_run
  obtain ⟨run, hlow, hhigh, hfree⟩ :=
    hstays.room fullWindow_walkable hrun (by decide)
  exact fullWindow_used ⟨hlow, by omega⟩ (hfree 0 (by decide))

end KimisOS.SearchRange
