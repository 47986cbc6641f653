import KimisOS.Memory.KernelHalf
import KimisOS.Memory.StackWindow

/-!
# What `fork` leaves behind

`fork` maps the frame before the one of the stack and the one of the stack
itself, and copies the registers through the first of the two pages.  It then
unmaps that page and the page below it, not the one above, so the second page
stays mapped; only registers that land on its own page table can undo that.
-/

namespace KimisOS.Leftover

open KimisOS.Frames
open KimisOS.Paging
open KimisOS.HeapMap
open KimisOS.Kmalloc
open KimisOS.Kfree
open KimisOS.Kill
open KimisOS.Fork
open KimisOS.Effects
open KimisOS.PageBlocks
open KimisOS.FrameWindow
open KimisOS.DeepCopy
open KimisOS.StackWindow

/-! ## What a call may change -/

/-- Only the kernel half and newly allocated frames differ, and no kernel page
that was unmapped is mapped, but for those the call has allocated. -/
structure KeepsMemory (own : Set ℕ) (m next : Machine) : Prop where
  frames : ∀ frame, ¬ NewlyAllocated m next frame → frame ≠ m.directory →
    ¬ IsTable m frame → ¬ IsTable next frame → next.mem frame = m.mem frame
  directory : ∀ slot, slot ∉ kernelSlots → next.pde slot = m.pde slot
  windows : ∀ other, KernelPage other → Free m other → other ∉ own → Free next other

/-- The registers land in the page table of the second page of the pair and on
the word of that page; and where they land on the word of another page that was
unmapped, they leave no flags there. -/
structure Overwrites (m mapped : Machine) (regs : Registers) (home page : ℕ) : Prop where
  table : frameOf (pageEntry mapped page) = frameOf (mapped.pde (slotOf (page + 1)))
  near : (page + 1) % 1024 < registerWords
  through : (page + 1) % 1024 ≠ 0 →
    frameOf (regs (page % 1024)) = frameOf (mapped.pde (slotOf (page + 1)))
  clear : ∀ i < registerWords, Free m ((page + 1) / 1024 * 1024 + i) →
    (page + 1) / 1024 * 1024 + i ≠ home → (page + 1) / 1024 * 1024 + i ≠ page →
      regs i &&& 0xfff = 0

/-! ## Stores of the registers -/

variable {m x y : Machine} {page : ℕ} {regs : Registers} {count : ℕ}

theorem store_eq_some {vaddr word : BitVec 32} (hstore : m.store vaddr word = some x) :
    ∃ frame, m.walk vaddr = some frame ∧ x = m.setWord frame (wordIndex vaddr) word := by
  unfold Machine.store at hstore
  split at hstore
  · cases hstore
  · rename_i frame hwalk
    exact ⟨frame, hwalk, (Option.some.inj hstore).symm⟩

/-- One more register: it goes to the frame that the page shows by then. -/
theorem storeRegisters_succ (hpage : KernelPage page) (hcount : count < 1024)
    (hstore : storeRegisters m (pageAt page) regs (count + 1) = some x) :
    ∃ y frame, storeRegisters m (pageAt page) regs count = some y ∧
      y.walk (wordAt (pageAt page) count) = some frame ∧
      x = y.setWord frame (BitVec.ofNat 10 count) (regs count) := by
  simp only [storeRegisters, Option.bind_eq_bind, Option.bind_eq_some_iff] at hstore
  obtain ⟨y, hy, hround⟩ := hstore
  obtain ⟨frame, hwalk, hx⟩ := store_eq_some hround
  rw [(hpage.walk_wordAt hcount).2.2] at hx
  exact ⟨y, frame, hy, hwalk, hx⟩

/-- Two machines that differ at most in the words of a range, in any frame. -/
structure DiffersWithin (low high : ℕ) (m next : Machine) : Prop where
  cr3 : next.cr3 = m.cr3
  frames : next.frames = m.frames
  mem : ∀ frame (index : BitVec 10), ¬ (low ≤ index.toNat ∧ index.toNat < high) →
    next.mem frame index = m.mem frame index

/-- The later registers leave the earlier words alone, and all of them the words
behind. -/
theorem storeRegisters_split (hpage : KernelPage page) {low high : ℕ} (hle : low ≤ high)
    (hhigh : high ≤ registerWords)
    (hstore : storeRegisters m (pageAt page) regs high = some x) :
    ∃ y, storeRegisters m (pageAt page) regs low = some y ∧ DiffersWithin low high y x := by
  have hwords : registerWords = 19 := rfl
  induction high, hle using Nat.le_induction generalizing x with
  | base => exact ⟨x, hstore, rfl, rfl, fun _ _ _ => rfl⟩
  | succ high hle ih =>
      obtain ⟨mid, frame, hmid, -, rfl⟩ :=
        storeRegisters_succ hpage (by omega) hstore
      obtain ⟨y, hy, hdiffers⟩ := ih (by omega) hmid
      refine ⟨y, hy, hdiffers.cr3, hdiffers.frames, ?_⟩
      intro other index hout
      have hvalue := ofNat_toNat (show high < 1024 by omega)
      rw [setWord_mem, if_neg]
      · exact hdiffers.mem other index (by omega)
      · rintro ⟨-, rfl⟩
        omega

theorem DiffersWithin.pde (hdiffers : DiffersWithin 0 count m x)
    (hcount : count ≤ registerWords) {slot : BitVec 10} (hslot : 768 ≤ slot.toNat) :
    x.pde slot = m.pde slot := by
  have hwords : registerWords = 19 := rfl
  rw [Machine.pde, Machine.pde, Machine.directory, Machine.directory, hdiffers.cr3]
  exact hdiffers.mem _ slot (by omega)

theorem DiffersWithin.addressable (hdiffers : DiffersWithin 0 count m x)
    (hcount : count ≤ registerWords) (haddr : Addressable kernelSlots m) :
    Addressable kernelSlots x := by
  have hpde : ∀ slot ∈ kernelSlots, x.pde slot = m.pde slot := fun slot hslot =>
    hdiffers.pde hcount hslot.1
  have hdirectory : x.directory = m.directory := by
    rw [Machine.directory, Machine.directory, hdiffers.cr3]
  constructor
  · rw [Recursive, hdiffers.pde hcount (show 768 ≤ (1023 : BitVec 10).toNat by decide),
      hdirectory]
    exact haddr.recursive
  · intro slot hslot
    rw [hpde slot hslot]
    exact haddr.present slot hslot
  · intro slot hslot
    rw [hpde slot hslot, hdirectory]
    exact haddr.notDirectory slot hslot
  · intro slot hslot other hother
    rw [hpde slot hslot, hpde other hother]
    exact haddr.distinct slot hslot other hother

/-- The frame that a page shows, by the word of the page in its table. -/
theorem walk_table (hpage : KernelPage page) (htable : present (m.pde (slotOf page)) = true)
    (hcount : count < 1024) {frame : BitVec 20}
    (hwalk : m.walk (wordAt (pageAt page) count) = some frame) :
    frame = frameOf (m.mem (frameOf (m.pde (slotOf page))) (indexOf page)) := by
  obtain ⟨hslot, hindex, -⟩ := hpage.walk_wordAt hcount
  simp only [Machine.walk, hslot, hindex, htable, if_true] at hwalk
  split at hwalk
  · exact (Option.some.inj hwalk).symm
  · cases hwalk

/-- Where a register has gone, and that it is still there. -/
theorem storeRegisters_word (hpage : KernelPage page) {high : ℕ}
    (hhigh : high ≤ registerWords) (hcount : count < high)
    (hstore : storeRegisters m (pageAt page) regs high = some x) :
    ∃ y frame, storeRegisters m (pageAt page) regs count = some y ∧
      y.walk (wordAt (pageAt page) count) = some frame ∧
      ∀ other, x.mem other (BitVec.ofNat 10 count) =
        if other = frame then regs count else m.mem other (BitVec.ofNat 10 count) := by
  have hwords : registerWords = 19 := rfl
  have hvalue := ofNat_toNat (show count < 1024 by omega)
  obtain ⟨next, hnext, hlater⟩ :=
    storeRegisters_split hpage (show count + 1 ≤ high by omega) hhigh hstore
  obtain ⟨y, frame, hy, hwalk, rfl⟩ := storeRegisters_succ hpage (by omega) hnext
  obtain ⟨first, hfirst, hearlier⟩ :=
    storeRegisters_split hpage (Nat.zero_le count) (by omega) hy
  obtain rfl := Option.some.inj hfirst
  refine ⟨y, frame, hy, hwalk, ?_⟩
  intro other
  rw [hlater.mem other _ (by omega), setWord_mem, hearlier.mem other _ (by omega)]
  simp

/-! ## Where the registers land -/

/-- The frame with the page table of a page. -/
def tableOf (m : Machine) (page : ℕ) : BitVec 20 := frameOf (m.pde (slotOf page))

theorem pageEntry_of_tabled (htabled : Tabled m page) :
    pageEntry m page = m.mem (tableOf m page) (indexOf page) := by
  rw [pageEntry, Machine.entry, if_neg htabled]
  rfl

/-- Two neighbouring kernel pages that are mapped. -/
structure PairMapped (m : Machine) (page : ℕ) : Prop where
  addressable : Addressable kernelSlots m
  low : KernelPage page
  high : KernelPage (page + 1)
  first : present (pageEntry m page) = true
  second : present (pageEntry m (page + 1)) = true

theorem PairMapped.tabled (hpair : PairMapped m page) : Tabled m page :=
  tabled_of_present rfl hpair.first

/-- The two pages have one table, and neighbouring words in it, or two tables. -/
theorem PairMapped.tables (hpair : PairMapped m page) :
    tableOf m page = tableOf m (page + 1) ∧
        (page + 1) % 1024 = (indexOf page).toNat + 1 ∨
      tableOf m page ≠ tableOf m (page + 1) ∧ (indexOf page).toNat = 1023 ∧
        (page + 1) % 1024 = 0 := by
  have hslot := hpair.low.slotOf_toNat
  have hslot' := hpair.high.slotOf_toNat
  have hindex := hpair.low.indexOf_toNat
  by_cases hsame : page / 1024 = (page + 1) / 1024
  · refine .inl ⟨?_, by omega⟩
    have heq : slotOf page = slotOf (page + 1) := by
      apply BitVec.eq_of_toNat_eq
      omega
    rw [tableOf, tableOf, heq]
  · refine .inr ⟨?_, by omega, by omega⟩
    intro heq
    have hslots := hpair.addressable.distinct _ hpair.low.slotOf_mem _
      hpair.high.slotOf_mem hpair.tabled (tabled_of_present rfl hpair.second) heq
    have := congrArg BitVec.toNat hslots
    omega

/-- A register goes to the frame that the word of the first page names by then. -/
theorem PairMapped.register_frame (hpair : PairMapped m page)
    (hcount : count < registerWords)
    (hstore : storeRegisters m (pageAt page) regs count = some y) {frame : BitVec 20}
    (hwalk : y.walk (wordAt (pageAt page) count) = some frame) :
    frame = frameOf (y.mem (tableOf m page) (indexOf page)) := by
  have hwords : registerWords = 19 := rfl
  obtain ⟨first, hfirst, hdiffers⟩ :=
    storeRegisters_split hpair.low (Nat.zero_le count) hcount.le hstore
  obtain rfl := Option.some.inj hfirst
  have hpde := hdiffers.pde hcount.le hpair.low.slotOf_mem.1
  have hpresent : present (y.pde (slotOf page)) = true := by
    rw [hpde]
    exact hpair.addressable.present _ hpair.low.slotOf_mem hpair.tabled
  rw [walk_table hpair.low hpresent (by omega) hwalk, hpde]
  rfl

/-- Up to that word itself, it is the frame that the first page was mapped to. -/
theorem PairMapped.first_frame (hpair : PairMapped m page)
    (hcount : count < registerWords) (hindex : count ≤ (indexOf page).toNat)
    (hstore : storeRegisters m (pageAt page) regs count = some y) {frame : BitVec 20}
    (hwalk : y.walk (wordAt (pageAt page) count) = some frame) :
    frame = frameOf (pageEntry m page) := by
  obtain ⟨first, hfirst, hdiffers⟩ :=
    storeRegisters_split hpair.low (Nat.zero_le count) hcount.le hstore
  obtain rfl := Option.some.inj hfirst
  rw [hpair.register_frame hcount hstore hwalk, pageEntry_of_tabled hpair.tabled,
    hdiffers.mem _ _ (by omega)]

/-- The word at the index of the second page changes only if the registers land on
its table. -/
theorem PairMapped.lands (hpair : PairMapped m page)
    (hstore : storeRegisters m (pageAt page) regs registerWords = some x)
    (hchanged : x.mem (tableOf m (page + 1)) (indexOf (page + 1)) ≠
      m.mem (tableOf m (page + 1)) (indexOf (page + 1))) :
    (page + 1) % 1024 < registerWords ∧
      frameOf (pageEntry m page) = tableOf m (page + 1) ∧
      ((page + 1) % 1024 ≠ 0 →
        frameOf (regs (page % 1024)) = tableOf m (page + 1)) := by
  have hwords : registerWords = 19 := rfl
  have hindex := hpair.low.indexOf_toNat
  have hnextIndex := hpair.high.indexOf_toNat
  obtain ⟨first, hfirst, hdiffers⟩ :=
    storeRegisters_split hpair.low (Nat.zero_le registerWords) le_rfl hstore
  obtain rfl := Option.some.inj hfirst
  have hnear : (page + 1) % 1024 < registerWords := by
    by_contra hfar
    exact hchanged (hdiffers.mem _ _ (by omega))
  have hvalue : indexOf (page + 1) = BitVec.ofNat 10 ((page + 1) % 1024) := by
    apply BitVec.eq_of_toNat_eq
    rw [hnextIndex, ofNat_toNat (by omega)]
  obtain ⟨y, frame, hy, hwalk, hword⟩ :=
    storeRegisters_word hpair.low le_rfl hnear hstore
  have hframe : tableOf m (page + 1) = frame := by
    by_contra hne
    rw [hvalue, hword, if_neg hne] at hchanged
    exact hchanged rfl
  rcases hpair.tables with ⟨htable, hnext⟩ | ⟨-, hlast, hzero⟩
  · -- the register before has gone over the word of the first page
    have hbefore : page % 1024 < (page + 1) % 1024 := by omega
    obtain ⟨z, earlier, hz, hwalk', hword'⟩ :=
      storeRegisters_word hpair.low hnear.le hbefore hy
    have hearlier := hpair.first_frame (by omega) (by omega) hz hwalk'
    have hself : indexOf page = BitVec.ofNat 10 (page % 1024) := by
      apply BitVec.eq_of_toNat_eq
      rw [hindex, ofNat_toNat (by omega)]
    have hregister := hpair.register_frame hnear hy hwalk
    rw [hself, hword' (tableOf m page)] at hregister
    by_cases hover : tableOf m page = earlier
    · rw [if_pos hover] at hregister
      refine ⟨hnear, ?_, ?_⟩
      · rw [← hearlier, ← hover, htable]
      · intro _
        rw [← hregister, hframe]
    · rw [if_neg hover, ← hself, ← pageEntry_of_tabled hpair.tabled] at hregister
      refine absurd ?_ hover
      rw [htable, hframe, hregister, hearlier]
  · refine ⟨hnear, ?_, fun hne => absurd hzero hne⟩
    rw [hframe, hpair.first_frame hnear (by omega) hy hwalk]

/-- If they land on that table, all of them do. -/
theorem PairMapped.storeRegisters (hpair : PairMapped m page)
    (htable : frameOf (pageEntry m page) = tableOf m (page + 1))
    (hthrough : (page + 1) % 1024 ≠ 0 →
      frameOf (regs (page % 1024)) = tableOf m (page + 1))
    (hcount : count ≤ registerWords)
    (hstore : Fork.storeRegisters m (pageAt page) regs count = some x) :
    ∀ (frame : BitVec 20) (index : BitVec 10), x.mem frame index =
      if frame = tableOf m (page + 1) ∧ index.toNat < count then regs index.toNat
      else m.mem frame index := by
  have hwords : registerWords = 19 := rfl
  have hindex := hpair.low.indexOf_toNat
  induction count generalizing x with
  | zero =>
      obtain rfl := Option.some.inj hstore
      simp
  | succ count ih =>
      obtain ⟨y, frame, hy, hwalk, rfl⟩ :=
        storeRegisters_succ hpair.low (by omega) hstore
      have hmem := ih (by omega) hy
      have hframe : frame = tableOf m (page + 1) := by
        rw [hpair.register_frame (by omega) hy hwalk, hmem]
        rcases hpair.tables with ⟨hsame, hnext⟩ | ⟨hne, -, -⟩
        · split
          · rw [hindex, hthrough (by omega)]
          · rw [← pageEntry_of_tabled hpair.tabled, htable]
        · rw [if_neg fun h => hne h.1, ← pageEntry_of_tabled hpair.tabled, htable]
      have hvalue := ofNat_toNat (show count < 1024 by omega)
      intro other index
      rw [setWord_mem, hmem, hframe]
      by_cases hnew : other = tableOf m (page + 1) ∧ index = BitVec.ofNat 10 count
      · obtain ⟨rfl, rfl⟩ := hnew
        rw [if_pos ⟨rfl, rfl⟩, hvalue, if_pos ⟨rfl, Nat.lt_succ_self count⟩]
      · rw [if_neg hnew]
        have hother : other = tableOf m (page + 1) → index.toNat ≠ count := by
          intro hsame heq
          apply hnew
          refine ⟨hsame, ?_⟩
          apply BitVec.eq_of_toNat_eq
          rw [heq, hvalue]
        congr 1
        simp only [eq_iff_iff]
        constructor
        · rintro ⟨hsame, hlt⟩
          exact ⟨hsame, by omega⟩
        · rintro ⟨hsame, hlt⟩
          have := hother hsame
          exact ⟨hsame, by omega⟩

/-! ## What is unmapped -/

/-- Pages are unmapped, and no other word changes. -/
structure Unmaps (gone : Set ℕ) (m next : Machine) : Prop where
  addressable : Addressable kernelSlots next
  map : next.frames = m.frames
  cr3 : next.directory = m.directory
  pde : ∀ slot, next.pde slot = m.pde slot
  freed : ∀ other ∈ gone, KernelPage other → Free next other
  kept : ∀ other, KernelPage other → other ∉ gone →
    pageEntry next other = pageEntry m other
  mem : ∀ frame, ¬ IsTable m frame → next.mem frame = m.mem frame

theorem unmap_kernelPage (haddr : Addressable kernelSlots m) (hpage : KernelPage page) :
    ∃ next, unmap m (pageAt page) = some next ∧ Unmaps {page} m next := by
  by_cases htabled : Tabled m page
  · have hentry : ∀ other, KernelPage other → pageEntry (window m page 0) other =
        if other = page then 0 else pageEntry m other :=
      fun other hother => window_entry haddr hpage htabled 0 hother
    refine ⟨_, unmap_page haddr hpage htabled, window_addressable haddr hpage htabled 0,
      rfl, rfl, window_pde haddr hpage htabled 0, ?_, ?_, ?_⟩
    · rintro other rfl hother
      rw [Free, hentry other hother, if_pos rfl]
      decide
    · intro other hother hkept
      have hne : other ≠ page := hkept
      rw [hentry other hother, if_neg hne]
    · intro frame hframe
      apply window_mem
      rintro rfl
      exact hframe ⟨slotOf page, hpage.slotOf_mem, htabled, rfl⟩
  · have hempty : m.pde (pdIndex (pageAt page)) = 0 := not_not.mp htabled
    refine ⟨m, ?_, haddr, rfl, rfl, fun _ => rfl, ?_, fun _ _ _ => rfl, fun _ _ => rfl⟩
    · simp only [unmap, load_pdAddress haddr.recursive, Option.bind_eq_bind,
        Option.bind_some, if_pos hempty]
    · rintro other rfl -
      exact free_of_untabled htabled

theorem Unmaps.trans {gone gone' : Set ℕ} (hfirst : Unmaps gone m x)
    (hsecond : Unmaps gone' x y) : Unmaps (gone ∪ gone') m y where
  addressable := hsecond.addressable
  map := hsecond.map.trans hfirst.map
  cr3 := hsecond.cr3.trans hfirst.cr3
  pde slot := (hsecond.pde slot).trans (hfirst.pde slot)
  freed other hgone hother := by
    by_cases hlate : other ∈ gone'
    · exact hsecond.freed other hlate hother
    · rw [Free, hsecond.kept other hother hlate]
      exact hfirst.freed other (hgone.resolve_right hlate) hother
  kept other hother hkept := by
    rw [hsecond.kept other hother fun hmem => hkept (.inr hmem),
      hfirst.kept other hother fun hmem => hkept (.inl hmem)]
  mem frame hframe := by
    have htables : ¬ IsTable x frame := by
      simpa only [IsTable, hfirst.pde] using hframe
    rw [hsecond.mem frame htables, hfirst.mem frame hframe]

/-- The copy of the registers, and the three pages that are unmapped then. -/
theorem useWindow_spec {home : ℕ} (hpair : PairMapped m page) (hhome : KernelPage home)
    (hlow : 0xc0000 < page) (huse : useWindow m (pageAt home) (pageAt page) regs = some x) :
    ∃ stored, storeRegisters m (pageAt page) regs registerWords = some stored ∧
      DiffersWithin 0 registerWords m stored ∧
      Unmaps ({home} ∪ {page} ∪ {page - 1}) stored x := by
  have hbelow : KernelPage (page - 1) := ⟨by omega, by have := hpair.low.2; omega⟩
  simp only [useWindow, Option.bind_eq_bind, Option.bind_eq_some_iff] at huse
  obtain ⟨stored, hstore, first, hfirst, second, hsecond, hlast⟩ := huse
  obtain ⟨start, hstart, hdiffers⟩ :=
    storeRegisters_split hpair.low (Nat.zero_le registerWords) le_rfl hstore
  obtain rfl := Option.some.inj hstart
  obtain ⟨first', hfirst', hunmaps⟩ :=
    unmap_kernelPage (hdiffers.addressable le_rfl hpair.addressable) hhome
  rw [hfirst] at hfirst'
  obtain rfl := Option.some.inj hfirst'
  obtain ⟨second', hsecond', hunmaps'⟩ := unmap_kernelPage hunmaps.addressable hpair.low
  rw [hsecond] at hsecond'
  obtain rfl := Option.some.inj hsecond'
  obtain ⟨last, hlast', hunmaps''⟩ := unmap_kernelPage hunmaps'.addressable hbelow
  rw [pageAt_pred hlow hpair.low.2, hlast'] at hlast
  obtain rfl := Option.some.inj hlast
  exact ⟨stored, hstore, hdiffers, (hunmaps.trans hunmaps').trans hunmaps''⟩

/-! ## Exactly when nothing is left -/

variable {home : ℕ}

theorem StackMapped.pairMapped {paddr : BitVec 32} (hready : Forkable m home page)
    (hmapped : StackMapped m x home page paddr) : PairMapped x page := by
  obtain ⟨hlow, hhome, hhigh⟩ := hready.order
  refine ⟨hmapped.tables.addressable, ⟨by omega, by omega⟩, ⟨by omega, by omega⟩, ?_, ?_⟩
  · rw [hmapped.first]
    exact present_linkFlags _ _ _
  · rw [hmapped.second]
    exact present_linkFlags _ _ _

/-- A free page below the pair would begin a lower pair. -/
theorem Forkable.ne_pred (hready : Forkable m home page) {other : ℕ}
    (hfree : Free m other) (hne : other ≠ home) : other ≠ page - 1 := by
  rintro rfl
  obtain ⟨hlow, hhome, hhigh⟩ := hready.order
  obtain ⟨j, hj, hnot⟩ := hready.pair.lowest (page - 1) (by omega) (by omega)
  apply hnot
  interval_cases j
  · exact ⟨hfree, hne⟩
  · have hpage := hready.pair.run 0 (by omega)
    rwa [Nat.add_zero, ← Nat.sub_add_cancel (show 1 ≤ page by omega)] at hpage

/-- The word of a kernel page once the registers are on the table of the pair. -/
theorem PairMapped.pageEntry_stored (hpair : PairMapped m page)
    (hdiffers : DiffersWithin 0 registerWords m x)
    (hmem : ∀ (frame : BitVec 20) (index : BitVec 10), x.mem frame index =
      if frame = tableOf m (page + 1) ∧ index.toNat < registerWords then
        regs index.toNat
      else m.mem frame index) {other : ℕ} (hother : KernelPage other) :
    pageEntry x other =
      if other / 1024 = (page + 1) / 1024 ∧ other % 1024 < registerWords then
        regs (other % 1024)
      else pageEntry m other := by
  have hpde := hdiffers.pde le_rfl hother.slotOf_mem.1
  have hindex := hother.indexOf_toNat
  have hslot := hother.slotOf_toNat
  have hslot' := hpair.high.slotOf_toNat
  have hnext := tabled_of_present rfl hpair.second
  by_cases hsame : other / 1024 = (page + 1) / 1024
  · have heq : slotOf other = slotOf (page + 1) := by
      apply BitVec.eq_of_toNat_eq
      omega
    have hne : m.pde (slotOf other) ≠ 0 := by
      rw [heq]
      exact hnext
    rw [pageEntry, Machine.entry, hpde, if_neg hne, hmem, pageEntry, Machine.entry,
      if_neg hne, hindex, tableOf, heq]
    simp only [hsame, true_and]
  · rw [if_neg fun h => hsame h.1, pageEntry, pageEntry, Machine.entry, Machine.entry, hpde]
    by_cases hempty : m.pde (slotOf other) = 0
    · rw [if_pos hempty, if_pos hempty]
    · rw [if_neg hempty, if_neg hempty, hmem, if_neg]
      rintro ⟨hframe, -⟩
      have hslots := hpair.addressable.distinct _ hother.slotOf_mem _
        hpair.high.slotOf_mem hempty hnext hframe
      have := congrArg BitVec.toNat hslots
      omega

/-- After the three pages are unmapped, the pages that were free are free again
exactly if the registers have gone over the word of the second page. -/
theorem Forkable.free_again_iff {paddr : BitVec 32} (hready : Forkable m home page)
    (hmapped : StackMapped m x home page paddr)
    (huse : useWindow x (pageAt home) (pageAt page) regs = some y) :
    (∀ other, KernelPage other → Free m other → Free y other) ↔
      Overwrites m x regs home page := by
  have hpair := StackMapped.pairMapped hready hmapped
  obtain ⟨hlow, hhome, hhigh⟩ := hready.order
  obtain ⟨stored, hstore, hdiffers, hunmaps⟩ :=
    useWindow_spec hpair ⟨hlow, by omega⟩ (by omega) huse
  have hwords : registerWords = 19 := rfl
  have hnextIndex := hpair.high.indexOf_toNat
  constructor
  · intro hagain
    have hkept : ∀ other, KernelPage other → Free m other → other ≠ home → other ≠ page →
        Free stored other := by
      intro other hother hfree hneHome hnePage
      have hnePred := Forkable.ne_pred hready hfree hneHome
      have hold := hunmaps.kept other hother (by simp [hneHome, hnePage, hnePred])
      rw [Free, ← hold]
      exact hagain other hother hfree
    have hnextFree : Free stored (page + 1) :=
      hkept _ hpair.high (hready.pair.run 1 (by omega)).1 (by omega) (by omega)
    have hnextTabled : Tabled x (page + 1) := tabled_of_present rfl hpair.second
    have hchanged : stored.mem (tableOf x (page + 1)) (indexOf (page + 1)) ≠
        x.mem (tableOf x (page + 1)) (indexOf (page + 1)) := by
      intro hsame
      rw [← pageEntry_of_tabled hnextTabled] at hsame
      refine not_free_of_present ?_ hpair.second hnextFree
      have hpde := hdiffers.pde le_rfl hpair.high.slotOf_mem.1
      rw [← hsame, pageEntry_of_tabled (by rwa [Tabled, hpde]), tableOf, hpde]
      rfl
    obtain ⟨hnear, htable, hthrough⟩ := hpair.lands hstore hchanged
    refine ⟨htable, hnear, hthrough, ?_⟩
    intro i hi hfree hneHome hnePage
    have hother : KernelPage ((page + 1) / 1024 * 1024 + i) := by
      obtain ⟨hfirst, hlast⟩ := hpair.high
      exact ⟨by omega, by omega⟩
    have hagain' := hkept _ hother hfree hneHome hnePage
    have hmem := hpair.storeRegisters htable hthrough le_rfl hstore
    rw [Free, hpair.pageEntry_stored hdiffers hmem hother, if_pos (by omega)] at hagain'
    rwa [show ((page + 1) / 1024 * 1024 + i) % 1024 = i by omega] at hagain'
  · intro hover other hother hfree
    by_cases hgone : other ∈ ({home} ∪ {page} ∪ {page - 1} : Set ℕ)
    · exact hunmaps.freed other hgone hother
    · have hneHome : other ≠ home := fun h => hgone (.inl (.inl h))
      have hnePage : other ≠ page := fun h => hgone (.inl (.inr h))
      have hmem := hpair.storeRegisters hover.table hover.through le_rfl hstore
      rw [Free, hunmaps.kept other hother hgone,
        hpair.pageEntry_stored hdiffers hmem hother]
      have hsplit := Nat.div_add_mod other 1024
      by_cases hword : other / 1024 = (page + 1) / 1024 ∧ other % 1024 < registerWords
      · rw [if_pos hword]
        have hpage : other = (page + 1) / 1024 * 1024 + other % 1024 := by omega
        refine hover.clear _ hword.2 ?_ ?_ ?_
        · rwa [← hpage]
        · rwa [← hpage]
        · rwa [← hpage]
      · rw [if_neg hword]
        refine hmapped.others other hother hfree hneHome hnePage ?_
        rintro rfl
        exact hword ⟨rfl, hover.near⟩

/-- If the registers are on the table of the pair, nothing else has changed. -/
theorem Forkable.placed_effect {paddr : BitVec 32} (hready : Forkable m home page)
    (hmapped : StackMapped m x home page paddr) (hover : Overwrites m x regs home page)
    (huse : useWindow x (pageAt home) (pageAt page) regs = some y) : Effect ∅ m y := by
  have hpair := StackMapped.pairMapped hready hmapped
  obtain ⟨hlow, hhome, hhigh⟩ := hready.order
  obtain ⟨stored, hstore, hdiffers, hunmaps⟩ :=
    useWindow_spec hpair ⟨hlow, by omega⟩ (by omega) huse
  have hmem := hpair.storeRegisters hover.table hover.through le_rfl hstore
  have hnextSlot := hpair.high.slotOf_mem
  have hnextTabled : Tabled x (page + 1) := tabled_of_present rfl hpair.second
  have hdirectory : stored.directory = x.directory := by
    rw [Machine.directory, Machine.directory, hdiffers.cr3]
  have hapart := hpair.addressable.notDirectory _ hnextSlot hnextTabled
  have hpde : ∀ slot, stored.pde slot = x.pde slot := by
    intro slot
    rw [Machine.pde, hdirectory, hmem, if_neg fun h => hapart h.1.symm]
    rfl
  have htables : ∀ frame, IsTable stored frame ↔ IsTable x frame := by
    intro frame
    simp only [IsTable, hpde]
  refine hmapped.effect.trans
    ⟨hunmaps.cr3.trans hdirectory, ?_, ?_, ?_, ?_, ?_⟩
  · intro slot _
    rw [hunmaps.pde, hpde]
  · intro slot _ _
    rw [hunmaps.pde, hpde]
  · intro frame htable
    simp only [IsTable, hunmaps.pde] at htable
    exact .inl ((htables frame).mp htable)
  · intro frame hused
    rwa [hunmaps.map, hdiffers.frames]
  · intro frame _ _ hnot _ _
    rw [hunmaps.mem frame (mt (htables frame).mp hnot)]
    funext index
    rw [hmem, if_neg]
    rintro ⟨rfl, -⟩
    exact hnot ⟨_, hnextSlot, hnextTabled, rfl⟩

/-! ## The page for the descriptors -/

/-- `kmalloc` of one page before `heap_init`, in a slot with a table. -/
theorem kmallocPages_one {addr : BitVec 32} (haddr : Addressable kernelSlots m)
    (hfit : FirstFit (Free m) 1 page) (htabled : Tabled m page)
    (hcall : kmallocPages m 1 = some (x, addr)) :
    x = m.setFrames (pmAlloc m.frames).1 ∧ addr = 0 ∨
      ∃ word, x = window (m.setFrames (pmAlloc m.frames).1) page word ∧
        addr = pageAt page := by
  have hpage := hfit.kernelPage
  have htaken := (samePages_frames m (pmAlloc m.frames).1).addressable haddr
  have htabled' : Tabled (m.setFrames (pmAlloc m.frames).1) page := htabled
  simp only [kmallocPages, searchPages_eq haddr hfit, mapFresh, Option.bind_eq_bind,
    Option.bind_some, Nat.add_zero, Bool.true_eq_false, if_false,
    map_page htaken hpage htabled'] at hcall
  split at hcall
  · obtain ⟨⟨mapped, served⟩, hflags, hresult⟩ := Option.bind_eq_some_iff.mp hcall
    obtain ⟨flags, -, hserved⟩ := Option.bind_eq_some_iff.mp hflags
    split at hserved
    · simp only [Option.some.injEq, Prod.mk.injEq] at hserved hresult
      obtain ⟨rfl, rfl⟩ := hserved
      obtain ⟨rfl, rfl⟩ := hresult
      exact .inl ⟨rfl, rfl⟩
    · cases hserved
  · simp only [Option.bind_some, Option.some.injEq, Prod.mk.injEq, if_true] at hcall
    obtain ⟨rfl, rfl⟩ := hcall
    exact .inr ⟨_, rfl, rfl⟩

/-- `kmalloc` takes pages that were unmapped, and changes no other. -/
structure TakesPages (own : Set ℕ) (m next : Machine) : Prop where
  effect : Effect ∅ m next
  taken : ∀ other ∈ own, KernelPage other → Free m other
  kept : ∀ other, KernelPage other → other ∉ own →
    pageEntry next other = pageEntry m other

theorem TakesPages.free_iff {own : Set ℕ} (htakes : TakesPages own m x) :
    (∀ other, KernelPage other → Free y other → other ∉ own → Free x other) ↔
      ∀ other, KernelPage other → Free y other → Free m other := by
  constructor
  · intro hagain other hother hfree
    by_cases hown : other ∈ own
    · exact htakes.taken other hown hother
    · rw [Free, ← htakes.kept other hother hown]
      exact hagain other hother hfree hown
  · intro hagain other hother hfree hown
    rw [Free, htakes.kept other hother hown]
    exact hagain other hother hfree

theorem pageAt_eq {other : ℕ} (hpage : KernelPage page) (hother : KernelPage other)
    (heq : pageAt other = pageAt page) : other = page := by
  have hvalue := congrArg BitVec.toNat heq
  rw [hpage.pageAt_toNat, hother.pageAt_toNat] at hvalue
  omega

theorem kmalloc_takes {kernel next : Kernel} {addr : BitVec 32}
    (haddr : Addressable kernelSlots m) (hfit : FirstFit (Free m) 1 page)
    (htabled : Tabled m page)
    (hcall : kmalloc { kernel with machine := m } 1 = some (next, addr)) :
    TakesPages {other | ¬ kernel.heapOn ∧ pageAt other = addr} m next.machine := by
  have hpage := hfit.kernelPage
  unfold Kmalloc.kmalloc at hcall
  split at hcall
  · rename_i hon
    obtain ⟨⟨heap, block⟩, -, hresult⟩ := Option.bind_eq_some_iff.mp hcall
    obtain ⟨rfl, -⟩ := Prod.mk.inj (Option.some.inj hresult)
    refine ⟨.refl ∅ m, ?_, fun _ _ _ => rfl⟩
    rintro other ⟨hoff, -⟩ -
    exact absurd hon hoff
  · rename_i hoff
    obtain ⟨⟨machine, block⟩, hpages, hresult⟩ := Option.bind_eq_some_iff.mp hcall
    obtain ⟨rfl, rfl⟩ := Prod.mk.inj (Option.some.inj hresult)
    have htaken : Effect ∅ m (m.setFrames (pmAlloc m.frames).1) := effect_takeFrame ∅ m
    have haddr' := (samePages_frames m (pmAlloc m.frames).1).addressable haddr
    have htabled' : Tabled (m.setFrames (pmAlloc m.frames).1) page := htabled
    rcases kmallocPages_one haddr hfit htabled hpages with ⟨rfl, rfl⟩ | ⟨word, rfl, rfl⟩
    · refine ⟨htaken, ?_, fun _ _ _ => rfl⟩
      rintro other ⟨-, hnull⟩ hother
      have hvalue := congrArg BitVec.toNat hnull
      rw [hother.pageAt_toNat] at hvalue
      have hlow := hother.1
      change other * 4096 = 0 at hvalue
      omega
    · refine ⟨htaken.trans (effect_window haddr' hpage htabled' word), ?_, ?_⟩
      · rintro other ⟨-, heq⟩ hother
        obtain rfl := pageAt_eq hpage hother heq
        exact hfit.free
      · intro other hother hkept
        rw [window_entry haddr' hpage htabled' word hother, if_neg]
        · rfl
        · rintro rfl
          exact hkept ⟨hoff, rfl⟩

/-- The page for the file descriptors, unless it comes from the heap. -/
def descriptorPages (system : System) (regs : Registers) : Set ℕ :=
  {other | ¬ system.kernel.heapOn ∧ ∃ placed newPd kernel addr,
    forkMemory system.kernel.machine regs = some (placed, newPd) ∧
      kmalloc { system.kernel with machine := placed } 1 = some (kernel, addr) ∧
      pageAt other = addr}

/-- The registers that `fork` copies. -/
def childRegisters (oldregs : Registers) : Registers := Function.update oldregs 11 0

/-- Where the registers land on the table of the pair and undo its mapping. -/
def UndoneByRegisters (m : Machine) (regs : Registers) (home page : ℕ) : Prop :=
  ∃ mapped newPd newPdPtr stack, stackWindow m regs = some (mapped, newPd, newPdPtr, stack) ∧
    Overwrites m mapped regs home page

theorem Forkable.tabled_placed {paddr : BitVec 32} (hready : Forkable m home page)
    (hmapped : StackMapped m x home page paddr)
    (huse : useWindow x (pageAt home) (pageAt page) regs = some y) :
    Addressable kernelSlots y ∧ ∃ first, FirstFit (Free y) 1 first ∧ Tabled y first := by
  have hpair := StackMapped.pairMapped hready hmapped
  obtain ⟨hlow, hhome, hhigh⟩ := hready.order
  have hkernelHome : KernelPage home := ⟨hlow, by omega⟩
  obtain ⟨stored, -, hdiffers, hunmaps⟩ := useWindow_spec hpair hkernelHome (by omega) huse
  have hagain : Free y home := hunmaps.freed home (.inl (.inl rfl)) hkernelHome
  obtain ⟨first, hle, hfit⟩ := exists_firstFit_one hkernelHome hagain
  have hfirst := hfit.kernelPage
  have hpde : y.pde (slotOf first) = x.pde (slotOf first) := by
    rw [hunmaps.pde, hdiffers.pde le_rfl hfirst.slotOf_mem.1]
  refine ⟨hunmaps.addressable, first, hfit, ?_⟩
  rw [Tabled, hpde]
  rcases hle.eq_or_lt with rfl | hlt
  · exact hmapped.homeTabled
  · apply hmapped.effect.tabled hfirst
    by_contra huntabled
    have hfree := free_of_untabled huntabled
    exact absurd (hready.first.le_of_free hfirst hfree) (by omega)

theorem Forkable.keepsMemory_iff {system next : System} {oldregs : Registers}
    (hready : Forkable system.kernel.machine home page)
    (hfork : fork system oldregs = some next) :
    KeepsMemory (descriptorPages system (childRegisters oldregs)) system.kernel.machine
        next.kernel.machine ↔
      UndoneByRegisters system.kernel.machine (childRegisters oldregs) home page := by
  simp only [fork, Option.bind_eq_bind, Option.bind_eq_some_iff] at hfork
  obtain ⟨⟨placed, newPd⟩, hmemory, ⟨spawned, pid⟩, -, hrest⟩ := hfork
  change forkMemory _ (childRegisters oldregs) = _ at hmemory
  cases pid with
  | none => cases hrest
  | some retpid =>
      obtain ⟨⟨kernel, addr⟩, hkmalloc, hresult⟩ := Option.bind_eq_some_iff.mp hrest
      obtain rfl := Option.some.inj hresult
      have hown : descriptorPages system (childRegisters oldregs) =
          {other | ¬ system.kernel.heapOn ∧ pageAt other = addr} := by
        ext other
        constructor
        · rintro ⟨hoff, placed', newPd', kernel', addr', hmemory', hkmalloc', heq⟩
          rw [hmemory] at hmemory'
          obtain ⟨rfl, rfl⟩ := Prod.mk.inj (Option.some.inj hmemory')
          rw [hkmalloc] at hkmalloc'
          obtain ⟨rfl, rfl⟩ := Prod.mk.inj (Option.some.inj hkmalloc')
          exact ⟨hoff, heq⟩
        · rintro ⟨hoff, heq⟩
          exact ⟨hoff, placed, newPd, kernel, addr, hmemory, hkmalloc, heq⟩
      rw [forkMemory_eq, Option.bind_eq_some_iff] at hmemory
      obtain ⟨⟨mapped, pd, newPdPtr, stack⟩, hwindow, hrounds⟩ := hmemory
      obtain ⟨rfl, rfl, paddr, hmapped⟩ := hready.stackWindow hwindow
      obtain ⟨placed', huse, hplaced⟩ := Option.map_eq_some_iff.mp hrounds
      obtain ⟨rfl, rfl⟩ := Prod.mk.inj hplaced
      obtain ⟨haddr, first, hfit, htabled⟩ := Forkable.tabled_placed hready hmapped huse
      have htakes := kmalloc_takes haddr hfit htabled hkmalloc
      rw [hown]
      have hagain := Forkable.free_again_iff hready hmapped huse
      constructor
      · intro hkeeps
        exact ⟨mapped, _, _, _, hwindow, hagain.mp (htakes.free_iff.mp hkeeps.windows)⟩
      · rintro ⟨mapped', newPd', newPdPtr', stack', hwindow', hover⟩
        rw [hwindow] at hwindow'
        obtain ⟨rfl, -⟩ := Prod.mk.inj (Option.some.inj hwindow')
        have heffect := (Forkable.placed_effect hready hmapped hover huse).trans htakes.effect
        refine ⟨?_, heffect.slots, htakes.free_iff.mpr (hagain.mpr hover)⟩
        intro frame hold hdirectory hnot hnext
        exact heffect.mem frame hold hdirectory hnot hnext (Set.notMem_empty _)

/-! ## A process without user pages -/

theorem copyFrames_none (hnone : ∀ slot ∈ userSlots, m.pde slot = 0) (hcount : count < 768) :
    copyFrames m count = 0 := by
  induction count with
  | zero => rfl
  | succ count ih =>
      rw [copyFrames, ih (by omega),
        if_pos (hnone _ (ofNat_mem_userSlots (Nat.succ_ne_zero count) hcount))]

theorem storeRegisters_shown (regs : Registers) {frame : BitVec 20}
    (hshows : Shows m page frame) (hcount : count ≤ registerWords) :
    ∃ table, storeRegisters m (pageAt page) regs count = some (m.setTable frame table) := by
  have hwords : registerWords = 19 := rfl
  induction count with
  | zero => exact ⟨m.mem frame, by rw [setTable_self]; rfl⟩
  | succ count ih =>
      obtain ⟨table, htable⟩ := ih (by omega)
      have hstore := (hshows.setTable hshows.plain table).store
        (show count < 1024 by omega) (regs count)
      refine ⟨Function.update table (BitVec.ofNat 10 count) (regs count), ?_⟩
      simp only [storeRegisters, htable, Option.bind_eq_bind, Option.bind_some, hstore,
        setTable_setWord]

/-- The address space can be copied, and the registers land in the frame before the
one of the stack. -/
theorem Forkable.returns (regs : Registers) (hready : Forkable m home page)
    (hnone : ∀ slot ∈ userSlots, m.pde slot = 0) {sp : ℕ} (hsp : KernelPage sp)
    (hused : ¬ Free m sp) (hesp : regs.esp = pageAt sp) {frame : BitVec 20}
    (hframe : frameOf ((pageEntry m sp &&& 0xfffff000) - 4096 ||| linkFlags 0 2) = frame)
    (hplain : Plain m frame) :
    ∃ mapped newPd placed,
      stackWindow m regs = some (mapped, newPd, pageAt home, pageAt page) ∧
        useWindow mapped (pageAt home) (pageAt page) regs = some placed ∧
        frameOf (pageEntry mapped page) = frame ∧ Plain mapped frame := by
  obtain ⟨shown, hshow, hcopy, hshowing, hshownFree, hold⟩ := hready.copyable
  obtain ⟨hlow, hhome, hhigh⟩ := hready.order
  have hneHome : sp ≠ home := by
    rintro rfl
    exact hused hready.first.free
  have hempty : copyFrames shown 767 = 0 := by
    apply copyFrames_none _ (by omega)
    intro slot hslot
    rw [hshowing.slots slot (not_kernelSlot hslot)]
    exact hnone slot hslot
  obtain ⟨copied, hcopied⟩ := hcopy.returns hempty.le trivial
  obtain ⟨hwork, -⟩ := hcopy.mapdupFull hcopied
  have hshownUsed : ¬ Free shown sp := fun h => hused ((hshownFree sp hsp).mp h).1
  have hentry : pageEntry copied sp = pageEntry m sp := by
    rw [hwork.kept sp hsp hshownUsed, hold sp hsp hneHome]
  have hpaddr := getPaddr_page hwork.tables.addressable hsp
  rw [hentry] at hpaddr
  have hshownFit : FirstFit (Free shown) 2 page :=
    hready.pair.congr fun other hother => hshownFree other hother
  have hfit : FirstFit (Free copied) 2 page := by
    apply hready.pair.congr
    intro other hother
    rw [hwork.free other hother, Untaken, hshownFree other hother]
    simp
  obtain ⟨mapped, hmapped, hmaps⟩ := kmallocPagePaddr_pair hwork.tables hfit
    (fun hnull => pair_tabled hwork hcopy hshownFit hnull)
    ((pageEntry m sp &&& 0xfffff000) - 4096)
  have hwindow : stackWindow m regs =
      some (mapped, BitVec.ofNat 32 (pmAlloc m.frames).2, pageAt home, pageAt page) := by
    simp only [stackWindow, hshow, hcopied, hesp, hpaddr, hmapped, Option.bind_eq_bind,
      Option.bind_some]
  obtain ⟨-, -, paddr, hstack⟩ := hready.stackWindow hwindow
  have hpair := StackMapped.pairMapped hready hstack
  have hfirst : frameOf (pageEntry mapped page) = frame := by
    rw [hmaps.entry page hpair.low, if_pos rfl, hframe]
  have hplain' : Plain mapped frame := hstack.effect.plain hplain
  have hshows : Shows mapped page frame :=
    ⟨hmaps.tables, hpair.low, hpair.first, hfirst, hplain'⟩
  obtain ⟨table, hstore⟩ := storeRegisters_shown regs hshows le_rfl
  have hstored := (hshows.setTable hplain' table).tables.addressable
  obtain ⟨first, hunmap, hunmaps⟩ := unmap_kernelPage hstored (show KernelPage home from
    ⟨hlow, by omega⟩)
  obtain ⟨second, hunmap', hunmaps'⟩ := unmap_kernelPage hunmaps.addressable hpair.low
  obtain ⟨placed, hunmap'', -⟩ := unmap_kernelPage hunmaps'.addressable
    (show KernelPage (page - 1) from ⟨by omega, by omega⟩)
  refine ⟨mapped, _, placed, hwindow, ?_, hfirst, hplain'⟩
  simp only [useWindow, hstore, hunmap, hunmap', pageAt_pred (show 0xc0000 < page by omega)
    hpair.low.2, hunmap'', Option.bind_eq_bind, Option.bind_some]

/-- Registers that land in a plain frame undo nothing. -/
theorem not_undone {frame : BitVec 20} {mapped : Machine} {newPd newPdPtr stack : BitVec 32}
    (hready : Forkable m home page)
    (hwindow : stackWindow m regs = some (mapped, newPd, newPdPtr, stack))
    (hframe : frameOf (pageEntry mapped page) = frame) (hplain : Plain mapped frame) :
    ¬ UndoneByRegisters m regs home page := by
  rintro ⟨mapped', newPd', newPdPtr', stack', hwindow', hover⟩
  rw [hwindow] at hwindow'
  obtain ⟨rfl, -⟩ := Prod.mk.inj (Option.some.inj hwindow')
  obtain ⟨-, -, paddr, hmapped⟩ := hready.stackWindow hwindow
  have hpair := StackMapped.pairMapped hready hmapped
  refine hplain.notTable ⟨slotOf (page + 1), hpair.high.slotOf_mem,
    tabled_of_present rfl hpair.second, ?_⟩
  rw [← hframe, hover.table]

theorem fork_returns {system : System} {oldregs : Registers} {placed : Machine}
    {newPd : BitVec 32} {spawned : Scheduler.SchedState} {retpid : ℕ}
    {result : Kernel × BitVec 32}
    (hmemory : forkMemory system.kernel.machine (childRegisters oldregs) =
      some (placed, newPd))
    (hspawn : Scheduler.spawnNewProcess system.sched (childRegisters oldregs).esp.toNat
      newPd.toNat = some (spawned, some retpid))
    (hkmalloc : kmalloc { system.kernel with machine := placed } 1 = some result) :
    ∃ next, fork system oldregs = some next := by
  rw [childRegisters] at hmemory hspawn
  simp only [fork, hmemory, hspawn, hkmalloc, Option.bind_eq_bind, Option.bind_some]
  exact ⟨_, rfl⟩

/-- A directory in frame 1 with a kernel table in frame 2.  Page `0xc0000`, the stack,
shows frame 5 and page `0xc0001` the frame before it. -/
def stackMachine : Machine where
  mem frame index :=
    if frame = 1 then
      if index = 1023 then 0x1001
      else if index = 768 then 0x2001
      else 0
    else if frame = 2 then
      if index = 0 then 0x5011 else if index = 1 then 0x4011 else 0
    else 0
  cr3 := 0x1000
  frames := ⟨fun byte => if byte = 0 then 0x3f else 0, 0⟩

def stackSystem : System where
  kernel := ⟨stackMachine, ⟨fun _ => 0, 4, 0xd0000000, 0⟩⟩
  sched :=
    { processes := fun pid => ⟨pid = 0, false, true, 0, 0, 0x1000, 0⟩
      processQueue := fun _ => 0
      activeProcesses := 1
      currentPid := 0
      queueLength := 1
      currentQueueIndex := 0 }

/-- The stack pointer is the first address of page `0xc0000`. -/
def stackRegisters : Registers := fun i => if i = 7 then 0xc0000000 else 0

theorem stackMachine_pde (slot : BitVec 10) : stackMachine.pde slot =
    if slot = 1023 then 0x1001 else if slot = 768 then 0x2001 else 0 := by
  have hdirectory : stackMachine.directory = 1 := by decide
  rw [Machine.pde, hdirectory]
  rfl

theorem stackMachine_slot {slot : BitVec 10} (hslot : slot ∈ lowSlots)
    (hne : stackMachine.pde slot ≠ 0) :
    slot = 768 ∧ stackMachine.pde slot = 0x2001 := by
  have hlast : slot ≠ 1023 := hslot
  by_cases hkernel : slot = 768
  · subst hkernel
    exact ⟨rfl, by rw [stackMachine_pde]; rfl⟩
  · rw [stackMachine_pde, if_neg hlast, if_neg hkernel] at hne
    exact absurd rfl hne

theorem stackMachine_space : AddressSpace stackMachine := by
  refine ⟨⟨⟨by decide, by decide⟩, ?_, ?_, ?_⟩, ⟨by decide, by decide⟩, ?_⟩
  · intro slot hslot hne
    rw [(stackMachine_slot hslot hne).2]
    decide
  · intro slot hslot hne
    rw [(stackMachine_slot hslot hne).2]
    decide
  · intro slot hslot other hother hne hne' _
    rw [(stackMachine_slot hslot hne).1, (stackMachine_slot hother hne').1]
  · intro slot hslot hne
    rw [(stackMachine_slot hslot hne).2]
    exact ⟨by decide, by decide⟩

theorem stackMachine_user {slot : BitVec 10} (hslot : slot ∈ userSlots) :
    stackMachine.pde slot = 0 := by
  by_contra hne
  obtain ⟨rfl, -⟩ := stackMachine_slot (userSlots_subset hslot) hne
  exact absurd hslot.2 (by decide)

theorem stackMachine_forkable : Forkable stackMachine 0xc0002 0xc0003 := by
  have hused : ¬ Free stackMachine 0xc0000 ∧ ¬ Free stackMachine 0xc0001 := by decide
  have hbelow : ∀ other, 0xc0000 ≤ other → other < 0xc0002 → ¬ Free stackMachine other := by
    intro other hlow hhigh
    rcases (show other = 0xc0000 ∨ other = 0xc0001 by omega) with rfl | rfl
    · exact hused.1
    · exact hused.2
  refine ⟨stackMachine_space, ?_, by decide, ⟨by decide, by decide, ?_, ?_⟩,
    .inl (show stackMachine.pde (slotOf 0xc0002) ≠ 0 by decide), ⟨by decide, by decide, ?_, ?_⟩⟩
  · intro slot hslot index hpresent
    obtain ⟨hne, -⟩ := entry_of_present hpresent
    exact absurd (stackMachine_user hslot) hne
  · intro j hj
    obtain rfl : j = 0 := by omega
    decide
  · intro other hlow hhigh
    exact ⟨0, by decide, hbelow other hlow hhigh⟩
  · intro j hj
    interval_cases j
    · exact ⟨by decide, by decide⟩
    · exact ⟨by decide, by decide⟩
  · intro other hlow hhigh
    refine ⟨0, by decide, ?_⟩
    rintro ⟨hfree, hne⟩
    exact hbelow other hlow (by omega) hfree

theorem stackSystem_spawns (esp pageDir : ℕ) :
    ∃ result : Scheduler.SchedState × ℕ,
      Scheduler.spawnNewProcess stackSystem.sched esp pageDir =
        some (result.1, some result.2) :=
  ⟨⟨_, 1⟩, rfl⟩

theorem stackSystem_kmalloc (placed : Machine) :
    ∃ result, kmalloc { stackSystem.kernel with machine := placed } 1 = some result := by
  have hheap : (heapAlloc stackSystem.kernel.heap 1).isSome = true := by decide
  obtain ⟨⟨heap, block⟩, hblock⟩ := Option.isSome_iff_exists.mp hheap
  have hon : Kernel.heapOn { stackSystem.kernel with machine := placed } := by
    change (0xd0000000 : UInt32) ≠ 0
    decide
  simp only [kmalloc, if_pos hon, hblock, Option.bind_eq_bind, Option.bind_some]
  exact ⟨_, rfl⟩

/-- The registers go to frame 4, which page `0xc0001` shows, and page `0xc0004` stays
mapped. -/
theorem stackSystem_fork : ∃ next, fork stackSystem stackRegisters = some next ∧
    ¬ UndoneByRegisters stackMachine (childRegisters stackRegisters) 0xc0002 0xc0003 := by
  have hplain : Plain stackMachine 4 := by
    refine ⟨⟨by decide, by decide⟩, by decide, ?_⟩
    rintro ⟨slot, hslot, hne, hframe⟩
    rw [(stackMachine_slot (kernelSlots_subset hslot) hne).2] at hframe
    exact absurd hframe (by decide)
  obtain ⟨mapped, newPd, placed, hwindow, huse, hframe, hplain'⟩ :=
    Forkable.returns (childRegisters stackRegisters) stackMachine_forkable
      (fun slot hslot => stackMachine_user hslot)
      (show KernelPage 0xc0000 from ⟨by decide, by decide⟩) (by decide) (by decide)
      (by decide) hplain
  have hmemory : forkMemory stackSystem.kernel.machine (childRegisters stackRegisters) =
      some (placed, newPd) := by
    change forkMemory stackMachine _ = _
    rw [forkMemory_eq, hwindow]
    simp only [Option.bind_some, huse, Option.map_some]
  obtain ⟨⟨spawned, pid⟩, hspawn⟩ := stackSystem_spawns
    (childRegisters stackRegisters).esp.toNat newPd.toNat
  obtain ⟨result, hkmalloc⟩ := stackSystem_kmalloc placed
  obtain ⟨next, hfork⟩ := fork_returns hmemory hspawn hkmalloc
  exact ⟨next, hfork, not_undone stackMachine_forkable hwindow hframe hplain'⟩

/-! ## The result -/

/-- `fork` keeps memory as it was exactly if the registers land on the page table of
the pair it has mapped for them, and undo the mapping that it leaves. -/
theorem fork_keepsMemory_iff (system next : System) (oldregs : Registers) (home page : ℕ)
    (hready : Forkable system.kernel.machine home page)
    (hfork : fork system oldregs = some next) :
    KeepsMemory (descriptorPages system (childRegisters oldregs)) system.kernel.machine
        next.kernel.machine ↔
      UndoneByRegisters system.kernel.machine (childRegisters oldregs) home page :=
  Forkable.keepsMemory_iff hready hfork

/-- Both sides fail when the registers land on the stack's other page. -/
theorem fork_keepsMemory_stackSystem : ∃ next, fork stackSystem stackRegisters = some next ∧
    (KeepsMemory (descriptorPages stackSystem (childRegisters stackRegisters)) stackMachine
        next.kernel.machine ↔
      UndoneByRegisters stackMachine (childRegisters stackRegisters) 0xc0002 0xc0003) := by
  obtain ⟨next, hfork, -⟩ := stackSystem_fork
  exact ⟨next, hfork, fork_keepsMemory_iff stackSystem next stackRegisters 0xc0002 0xc0003
    stackMachine_forkable hfork⟩

theorem fork_leaves_window : ∃ next, fork stackSystem stackRegisters = some next ∧
    ¬ KeepsMemory (descriptorPages stackSystem (childRegisters stackRegisters)) stackMachine
      next.kernel.machine := by
  obtain ⟨next, hfork, hnot⟩ := stackSystem_fork
  exact ⟨next, hfork, fun hkeeps =>
    hnot ((Forkable.keepsMemory_iff stackMachine_forkable hfork).mp hkeeps)⟩

end KimisOS.Leftover
