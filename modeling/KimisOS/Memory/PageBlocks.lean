import KimisOS.Memory.Effects
import KimisOS.Memory.Release
import KimisOS.Memory.SearchRange

/-!
# Blocks of pages

Before the heap is set up a block of `kmalloc` is a run of kernel pages whose
entries carry the links to their neighbours.  The block is all that `kfree`
needs: from any address inside it the links lead to its first page and from
there to its last one, whatever lies next to it.
-/

namespace KimisOS.PageBlocks

open KimisOS.Frames
open KimisOS.Paging
open KimisOS.Kmalloc
open KimisOS.Kfree
open KimisOS.Fork
open KimisOS.Effects
open KimisOS.SearchRange

/-! ## Address spaces -/

/-- The slots of a directory but the one that names it. -/
def lowSlots : Set (BitVec 10) := {slot | slot ≠ 1023}

/-- A directory and its tables, each in an allocated frame of its own. -/
structure AddressSpace (m : Machine) : Prop where
  addressable : Addressable lowSlots m
  directory : Allocated m m.directory
  tables : ∀ slot ∈ lowSlots, m.pde slot ≠ 0 → Allocated m (frameOf (m.pde slot))

/-- Whenever `kmalloc` calls `pm_alloc` for a block from this page on, for one
of its pages or for a page table, it gets a frame. -/
def Supplied (m : Machine) (page sizePgs : ℕ) : Prop :=
  ∀ k < sizePgs, ∀ mapped, mapFresh m page sizePgs k = some (mapped, true) →
    (pmAlloc mapped.frames).2 ≠ 0 ∧
      Spares (mapped.setFrames (pmAlloc mapped.frames).1) (page + k)

/-- The page is in the block. -/
def InBlock (page sizePgs : ℕ) (slot index : BitVec 10) : Prop :=
  ∃ k < sizePgs, slot = slotOf (page + k) ∧ index = indexOf (page + k)

/-- The pages of a block were unmapped, and each is mapped to a frame of its own
that was free; no other page is mapped otherwise than before. -/
structure MapsBlock (m next : Machine) (page sizePgs : ℕ) (frame : ℕ → ℕ) : Prop where
  unmapped : ∀ k < sizePgs, Free m (page + k)
  entry : ∀ k < sizePgs, pageEntry next (page + k) =
    BitVec.ofNat 32 (frame k * 4096) ||| linkFlags k sizePgs
  bound : ∀ k < sizePgs, frame k < 2 ^ 20
  free : ∀ k < sizePgs, m.frames.used (frame k) = false
  used : ∀ k < sizePgs, next.frames.used (frame k) = true
  distinct : ∀ j < sizePgs, ∀ k < sizePgs, frame j = frame k → j = k
  others : ∀ slot ∈ lowSlots, ∀ index, ¬ InBlock page sizePgs slot index →
    next.entry slot index = m.entry slot index

/-- The pages of a block are unmapped, its frames and no others are given back,
and every other page is mapped as before. -/
structure UnmapsBlock (m next : Machine) (page sizePgs : ℕ) (frame : ℕ → ℕ) :
    Prop where
  entry : ∀ k < sizePgs, pageEntry next (page + k) = 0
  used : ∀ other, next.frames.used other = true ↔
    m.frames.used other = true ∧ ∀ k < sizePgs, other ≠ frame k
  others : ∀ slot ∈ lowSlots, ∀ index, ¬ InBlock page sizePgs slot index →
    next.entry slot index = m.entry slot index

variable {m : Machine} {page sizePgs : ℕ}

theorem kernelSlots_subset : kernelSlots ⊆ lowSlots := fun _ hslot =>
  ne_last_of_kernelSlot hslot

theorem kernel_addressable (haddr : Addressable lowSlots m) :
    Addressable kernelSlots m where
  recursive := haddr.recursive
  present slot hslot := haddr.present slot (kernelSlots_subset hslot)
  notDirectory slot hslot := haddr.notDirectory slot (kernelSlots_subset hslot)
  distinct slot hslot other hother :=
    haddr.distinct slot (kernelSlots_subset hslot) other (kernelSlots_subset hother)

theorem AddressSpace.kernelTables (hspace : AddressSpace m) : KernelTables m where
  addressable := kernel_addressable hspace.addressable
  directory := hspace.directory
  tables := by
    rintro frame ⟨slot, hslot, hne, rfl⟩
    exact .inr (hspace.tables slot (kernelSlots_subset hslot) hne).used

theorem AddressSpace.not_null (hspace : AddressSpace m) : ¬ IsTable m 0 := by
  rintro ⟨slot, hslot, hne, hframe⟩
  exact (hspace.tables slot (kernelSlots_subset hslot) hne).ne_zero hframe.symm

theorem AddressSpace.sharedHalf (hspace : AddressSpace m) :
    SharedHalf {m.directory} m := by
  apply sharedHalf_of_addressable hspace.kernelTables.addressable hspace.directory.used
  rintro frame ⟨slot, hslot, hne, rfl⟩
  exact (hspace.tables slot (kernelSlots_subset hslot) hne).used

/-- The table of a user slot is no kernel table and not the directory. -/
theorem AddressSpace.plain (hspace : AddressSpace m) {slot : BitVec 10}
    (hslot : slot ∈ lowSlots) (huser : slot ∉ kernelSlots) (hne : m.pde slot ≠ 0) :
    Plain m (frameOf (m.pde slot)) where
  allocated := hspace.tables slot hslot hne
  notDirectory := hspace.addressable.notDirectory slot hslot hne
  notTable := by
    rintro ⟨other, hother, hne', hframe⟩
    have hsame := hspace.addressable.distinct slot hslot other
      (kernelSlots_subset hother) hne hne' hframe
    exact huser (hsame ▸ hother)

/-! ## `kmalloc` -/

theorem firstFit_of_hasRun (hrun : HasRun m sizePgs) :
    ∃ page, FirstFit (Free m) sizePgs page := by
  obtain ⟨run, hlow, hhigh, hfree⟩ := hrun
  exact exists_firstFit hlow hhigh hfree

/-- The loop of `kmalloc` while `pm_alloc` has frames. -/
theorem mapFresh_effect (hm : KernelTables m) (hnull : ¬ IsTable m 0)
    (hlow : 0xc0000 ≤ page) (hhigh : page + sizePgs ≤ 0xffc00)
    (hsupplied : Supplied m page sizePgs) {count : ℕ} (hcount : count ≤ sizePgs) :
    ∃ next, mapFresh m page sizePgs count = some (next, true) ∧ KernelTables next ∧
      ¬ IsTable next 0 ∧ Effect ∅ m next := by
  induction count with
  | zero => exact ⟨m, rfl, hm, hnull, .refl ∅ m⟩
  | succ count ih =>
      obtain ⟨mid, hmid, hmidTables, hmidNull, heffect⟩ := ih (by omega)
      obtain ⟨hserved, hspares⟩ := hsupplied count (by omega) mid hmid
      have hpage : KernelPage (page + count) := ⟨by omega, by omega⟩
      obtain ⟨next, hmap, hmaps⟩ := hmidTables.takeFrame.map hpage (.inr hmidNull)
        (BitVec.ofNat 32 (pmAlloc mid.frames).2) (linkFlags count sizePgs)
      refine ⟨next, ?_, hmaps.tables, hmaps.null hmidNull hspares,
        (heffect.trans (effect_takeFrame ∅ mid)).trans hmaps.effect⟩
      simp only [mapFresh, hmid, Option.bind_eq_bind, Option.bind_some,
        Bool.true_eq_false, if_false, if_neg hserved, hmap]

theorem AddressSpace.next (hspace : AddressSpace m) {next : Machine}
    (htables : KernelTables next) (hnull : ¬ IsTable next 0)
    (heffect : Effect ∅ m next) : AddressSpace next := by
  have huser : ∀ slot ∈ lowSlots, slot ∉ kernelSlots → next.pde slot ≠ 0 →
      m.pde slot ≠ 0 ∧ Plain next (frameOf (next.pde slot)) := by
    intro slot hslot hnot hne
    have hsame := heffect.slots slot hnot
    rw [hsame] at hne ⊢
    exact ⟨hne, heffect.plain (hspace.plain hslot hnot hne)⟩
  have hkernel : ∀ slot ∈ kernelSlots, next.pde slot ≠ 0 →
      IsTable next (frameOf (next.pde slot)) := fun slot hslot hne =>
    ⟨slot, hslot, hne, rfl⟩
  refine ⟨⟨htables.addressable.recursive, ?_, ?_, ?_⟩, htables.directory, ?_⟩
  · intro slot hslot hne
    by_cases hmem : slot ∈ kernelSlots
    · exact htables.addressable.present slot hmem hne
    · rw [heffect.slots slot hmem]
      exact hspace.addressable.present slot hslot (huser slot hslot hmem hne).1
  · intro slot hslot hne
    by_cases hmem : slot ∈ kernelSlots
    · exact htables.addressable.notDirectory slot hmem hne
    · exact (huser slot hslot hmem hne).2.notDirectory
  · intro slot hslot other hother hne hne' hframe
    by_cases hmem : slot ∈ kernelSlots
    · by_cases hmem' : other ∈ kernelSlots
      · exact htables.addressable.distinct slot hmem other hmem' hne hne' hframe
      · have hplain := (huser other hother hmem' hne').2
        exact absurd (hframe ▸ hkernel slot hmem hne) hplain.notTable
    · by_cases hmem' : other ∈ kernelSlots
      · have hplain := (huser slot hslot hmem hne).2
        exact absurd (hframe ▸ hkernel other hmem' hne') hplain.notTable
      · rw [heffect.slots slot hmem, heffect.slots other hmem'] at hframe
        exact hspace.addressable.distinct slot hslot other hother
          (huser slot hslot hmem hne).1 (huser other hother hmem' hne').1 hframe
  · intro slot hslot hne
    by_cases hmem : slot ∈ kernelSlots
    · have htable := hkernel slot hmem hne
      refine ⟨?_, ?_⟩
      · intro hzero
        exact hnull (hzero ▸ htable)
      · rcases htables.tables _ htable with hzero | hused
        · exact absurd (hzero ▸ htable) hnull
        · exact hused
    · exact (huser slot hslot hmem hne).2.allocated

/-! ## Pages by their numbers -/

/-- The page of a word in a kernel table. -/
theorem exists_kernelPage {slot : BitVec 10} (hslot : slot ∈ kernelSlots)
    (index : BitVec 10) :
    ∃ other, KernelPage other ∧ slotOf other = slot ∧ indexOf other = index := by
  obtain ⟨hlow, hhigh⟩ := hslot
  have hindex := index.isLt
  have hpage : KernelPage (slot.toNat * 1024 + index.toNat) := ⟨by omega, by omega⟩
  refine ⟨_, hpage, ?_, ?_⟩
  · apply BitVec.eq_of_toNat_eq
    rw [hpage.slotOf_toNat]
    omega
  · apply BitVec.eq_of_toNat_eq
    rw [hpage.indexOf_toNat]
    omega

theorem inBlock_iff (hlow : 0xc0000 ≤ page) (hhigh : page + sizePgs ≤ 0xffc00)
    {other : ℕ} (hother : KernelPage other) :
    InBlock page sizePgs (slotOf other) (indexOf other) ↔
      page ≤ other ∧ other < page + sizePgs := by
  constructor
  · rintro ⟨k, hk, hslot, hindex⟩
    have hpage : KernelPage (page + k) := ⟨by omega, by omega⟩
    have hsame := kernelPage_eq hpage hother hslot hindex
    omega
  · rintro ⟨hge, hlt⟩
    refine ⟨other - page, by omega, ?_⟩
    rw [Nat.add_sub_cancel' hge]
    exact ⟨rfl, rfl⟩

/-- The frames of two rounds differ: the later one was free when the earlier
one was in use. -/
theorem takenFrame_ne (hshared : SharedHalf {m.directory} m)
    (hlow : 0xc0000 ≤ page) (hhigh : page + sizePgs ≤ 0xffc00)
    (hsupplied : Supplied m page sizePgs) {k : ℕ} (hk : k < sizePgs) {mid : Machine}
    (hmid : mapFresh m page sizePgs k = some (mid, true)) {j : ℕ} (hj : j < k) :
    takenFrame m page sizePgs j ≠ takenFrame m page sizePgs k := by
  obtain ⟨hextends, -, hserved⟩ := mapFresh_spec hshared hlow hhigh
    (fun k hk mapped hmap => (hsupplied k hk mapped hmap).2) hk.le hmid
  have hused := ((hserved rfl).2 j hj).after
  obtain ⟨-, htook⟩ := tookFrame_pmAlloc (Extends.refl hextends.shared)
    (hsupplied k hk mid hmid).1
  intro hsame
  rw [hsame, takenFrame_eq hmid, htook.before] at hused
  cases hused

theorem mapsBlock (hspace : AddressSpace m) (hfit : FirstFit (Free m) sizePgs page)
    (hsupplied : Supplied m page sizePgs) :
    ∃ next, kmallocPages m sizePgs = some (next, pageAt page) ∧ AddressSpace next ∧
      MapsBlock m next page sizePgs (takenFrame m page sizePgs) := by
  have hlow := hfit.low
  have hhigh := hfit.high
  have hshared := hspace.sharedHalf
  obtain ⟨next, hmap, htables, hnull, heffect⟩ := mapFresh_effect
    hspace.kernelTables hspace.not_null hlow hhigh hsupplied le_rfl
  obtain ⟨-, hsame, hserved⟩ := mapFresh_spec hshared hlow hhigh
    (fun k hk mapped hmap => (hsupplied k hk mapped hmap).2) le_rfl hmap
  obtain ⟨hlinked, htook⟩ := hserved rfl
  have hne : ∀ j k, j < k → k < sizePgs →
      takenFrame m page sizePgs j ≠ takenFrame m page sizePgs k := by
    intro j k hj hk
    obtain ⟨mid, hmid, -⟩ := mapFresh_effect hspace.kernelTables hspace.not_null hlow
      hhigh hsupplied hk.le
    exact takenFrame_ne hshared hlow hhigh hsupplied hk hmid hj
  refine ⟨next, ?_, hspace.next htables hnull heffect, ?_⟩
  · simp only [kmallocPages, searchPages_eq hspace.kernelTables.addressable hfit, hmap,
      Option.bind_eq_bind, Option.bind_some, if_true]
  · constructor
    · exact hfit.run
    · exact hlinked
    · exact fun k hk => (htook k hk).bound
    · exact fun k hk => (htook k hk).before
    · exact fun k hk => (htook k hk).after
    · intro j hj k hk heq
      rcases Nat.lt_trichotomy j k with hlt | rfl | hlt
      · exact absurd heq (hne j k hlt hk)
      · rfl
      · exact absurd heq.symm (hne k j hlt hj)
    · intro slot hslot index hout
      by_cases hmem : slot ∈ kernelSlots
      · obtain ⟨other, hother, rfl, rfl⟩ := exists_kernelPage hmem index
        rw [inBlock_iff hlow hhigh hother] at hout
        exact hsame other hother (by omega)
      · exact heffect.entry hmem
          (fun hne => ⟨hspace.plain hslot hmem hne, Set.notMem_empty _⟩) index

/-! ## `kfree` -/

theorem pageAt_sub_page (page : ℕ) : pageAt (page + 1) - 0x1000 = pageAt page := by
  rw [← pageAt_add_page, BitVec.add_sub_cancel]

theorem linkFlags_linkL_ne {k : ℕ} (hk : k ≠ 0) (sizePgs : ℕ) :
    linkFlags k sizePgs &&& ptLinkL ≠ 0 := by
  unfold linkFlags
  rw [if_pos hk]
  split <;> decide

/-- The page of an address, as `get_pflags` and the first lines of `kfree` find
it. -/
theorem address_in_page {vaddr : BitVec 32} (hpage : KernelPage page)
    (hvaddr : vaddr.toNat / 4096 = page) :
    vaddr &&& ~~~0xfff = pageAt page ∧ getPflags m vaddr = getPflags m (pageAt page) := by
  have hmask : ~~~(0xfff : BitVec 32) = 0xfffff000 := by decide
  have hframe : frameOf vaddr = frameOf (pageAt page) := by
    apply BitVec.eq_of_toNat_eq
    rw [frameOf_toNat, frameOf_toNat, hpage.pageAt_toNat, hvaddr]
    omega
  obtain ⟨hpd, hpt⟩ := (samePage_iff (pageAt page) vaddr).mpr hframe
  constructor
  · have haligned := pageAt_aligned page
    rw [hmask] at haligned ⊢
    rw [← haligned]
    apply BitVec.eq_of_getLsbD_eq
    intro bit hbit
    simp only [BitVec.getLsbD_and, getLsbD_addressMask hbit]
    by_cases hhigh : 12 ≤ bit
    · have hsame := congrArg (fun frame : BitVec 20 => frame.getLsbD (bit - 12)) hframe
      simpa [frameOf, hhigh, show bit - 12 < 20 by omega] using hsame
    · simp [hhigh]
  · simp only [getPflags, getEntry, hpd, hpt]

/-- From any page of a block the links lead back to its first one. -/
theorem firstPage_block (haddr : Addressable kernelSlots m) {word : ℕ → BitVec 32}
    (hlow : 0xc0000 ≤ page) (hhigh : page + sizePgs ≤ 0xffc00)
    (hlinked : LinkedPages m page sizePgs sizePgs word)
    (haligned : ∀ k < sizePgs, word k &&& 0xfff = 0) {j rounds : ℕ} (hj : j < sizePgs)
    (hrounds : j < rounds) :
    firstPage m rounds (pageAt (page + j)) = some (pageAt page) := by
  have hflags : ∀ k < sizePgs, getPflags m (pageAt (page + k)) =
      some (linkFlags k sizePgs) := by
    intro k hk
    rw [getPflags_page haddr ⟨by omega, by omega⟩, hlinked k hk,
      flags_of_entry (haligned k hk) (linkFlags_lt k sizePgs)]
  induction j generalizing rounds with
  | zero =>
      obtain ⟨rounds, rfl⟩ : ∃ rest, rounds = rest + 1 := ⟨rounds - 1, by omega⟩
      have hfirst := hflags 0 hj
      rw [Nat.add_zero page] at hfirst ⊢
      simp only [firstPage, hfirst, Option.bind_eq_bind, Option.bind_some,
        linkFlags_linkL, ne_eq, not_true_eq_false, if_false]
  | succ j ih =>
      obtain ⟨rounds, rfl⟩ : ∃ rest, rounds = rest + 1 := ⟨rounds - 1, by omega⟩
      simp only [firstPage, hflags (j + 1) hj, Option.bind_eq_bind, Option.bind_some,
        if_pos (linkFlags_linkL_ne (Nat.succ_ne_zero j) sizePgs)]
      rw [← Nat.add_assoc, pageAt_sub_page]
      exact ih (by omega) (by omega)

/-- The second loop of `kfree` changes no page outside the block, in the user
half neither. -/
theorem releasePages_others (haddr : Addressable lowSlots m) {word : ℕ → BitVec 32}
    (hlow : 0xc0000 ≤ page) (hhigh : page + sizePgs ≤ 0xffc00) {j rounds : ℕ}
    (hj : j < sizePgs)
    (hlinked : ∀ k, j ≤ k → k < sizePgs →
      pageEntry m (page + k) = word k ||| linkFlags k sizePgs)
    (haligned : ∀ k < sizePgs, word k &&& 0xfff = 0) {next : Machine}
    (hrelease : releasePages m rounds (pageAt (page + j)) = some next) :
    ∀ slot ∈ lowSlots, ∀ index, ¬ InBlock page sizePgs slot index →
      next.entry slot index = m.entry slot index := by
  induction rounds generalizing m j with
  | zero => simp [releasePages] at hrelease
  | succ rounds ih =>
      have hpage : KernelPage (page + j) := ⟨by omega, by omega⟩
      have hkernel := kernel_addressable haddr
      have hflags := flags_of_entry (haligned j hj) (linkFlags_lt j sizePgs)
      obtain ⟨unmapped, hunmap, haddr', hentry⟩ :=
        unmap_spec haddr (kernelSlots_subset hpage.slotOf_mem)
      simp only [releasePages, getPflags_page hkernel hpage,
        getPaddr_page hkernel hpage, hlinked j le_rfl hj, hflags, hunmap,
        Option.bind_eq_bind, Option.bind_some] at hrelease
      set freed := unmapped.setFrames (pmFree unmapped.frames
        ((word j ||| linkFlags j sizePgs) &&& 0xfffff000).toNat) with hfreed
      have hsame : ∀ slot ∈ lowSlots, ∀ index, ¬ InBlock page sizePgs slot index →
          freed.entry slot index = m.entry slot index := by
        intro slot hslot index hout
        refine (hentry slot index hslot).trans (if_neg ?_)
        rintro ⟨hfirst, hsecond⟩
        exact hout ⟨j, hj, hfirst, hsecond⟩
      split at hrelease
      · obtain rfl := Option.some.inj hrelease
        exact hsame
      · rename_i hlink
        have hnext : j < sizePgs - 1 := by
          by_contra hlast
          exact hlink ((linkFlags_linkN j sizePgs).mpr hlast)
        have hrest : ∀ k, j + 1 ≤ k → k < sizePgs →
            pageEntry freed (page + k) = word k ||| linkFlags k sizePgs := by
          intro k hk hlt
          have hother : KernelPage (page + k) := ⟨by omega, by omega⟩
          refine ((hentry _ (indexOf (page + k))
            (kernelSlots_subset hother.slotOf_mem)).trans (if_neg ?_)).trans
            (hlinked k (by omega) hlt)
          rintro ⟨hfirst, hsecond⟩
          have hpages := kernelPage_eq hpage hother hfirst hsecond
          omega
        rw [pageAt_add_page, Nat.add_assoc] at hrelease
        have hfreedAddr : Addressable lowSlots freed :=
          ⟨haddr'.recursive, haddr'.present, haddr'.notDirectory, haddr'.distinct⟩
        intro slot hslot index hout
        rw [ih hfreedAddr (by omega) hrest hrelease slot hslot index hout]
        exact hsame slot hslot index hout

/-- `kfree` of any address inside a block. -/
theorem unmapsBlock (hspace : AddressSpace m) {frame : ℕ → ℕ}
    (hlow : 0xc0000 ≤ page) (hhigh : page + sizePgs ≤ 0xffc00)
    (hbound : ∀ k < sizePgs, frame k < 2 ^ 20)
    (hlinked : LinkedPages m page sizePgs sizePgs
      fun k => BitVec.ofNat 32 (frame k * 4096))
    {vaddr : BitVec 32} (hfirst : page * 4096 ≤ vaddr.toNat)
    (hlast : vaddr.toNat < (page + sizePgs) * 4096) :
    ∃ next, kfreePages m vaddr = some next ∧ UnmapsBlock m next page sizePgs frame := by
  have haddr := hspace.kernelTables.addressable
  have haligned : ∀ k < sizePgs, BitVec.ofNat 32 (frame k * 4096) &&& 0xfff = 0 := by
    intro k hk
    have := hbound k hk
    rw [aligned_iff, BitVec.toNat_ofNat]
    omega
  have hframe : ∀ k < sizePgs, (frameOf (BitVec.ofNat 32 (frame k * 4096))).toNat =
      frame k := by
    intro k hk
    have := hbound k hk
    rw [frameOf_toNat, BitVec.toNat_ofNat]
    omega
  obtain ⟨j, hj⟩ : ∃ j, vaddr.toNat / 4096 = page + j :=
    ⟨vaddr.toNat / 4096 - page, by omega⟩
  have hinside : j < sizePgs := by omega
  have hpage : KernelPage (page + j) := ⟨by omega, by omega⟩
  obtain ⟨hmask, hflags⟩ := address_in_page (m := m) hpage hj
  rw [getPflags_page haddr hpage, hlinked j hinside,
    flags_of_entry (haligned j hinside) (linkFlags_lt j sizePgs)] at hflags
  have hused : linkFlags j sizePgs ≠ 0 := by
    unfold linkFlags
    split <;> split <;> decide
  obtain ⟨next, hrelease, hcleared⟩ : ∃ next,
      releasePages m (2 ^ 20 + 1) (pageAt (page + 0)) = some next ∧
        Cleared m next page sizePgs 0 fun k => BitVec.ofNat 32 (frame k * 4096) :=
    releasePages_spec haddr hlow hhigh (by omega) (fun k _ hk => hlinked k hk)
      haligned (by omega)
  have hback := firstPage_block haddr hlow hhigh hlinked haligned hinside
    (show j < 2 ^ 20 + 1 by omega)
  refine ⟨next, ?_, ?_, ?_, ?_⟩
  · rw [Nat.add_zero] at hrelease
    simp only [kfreePages, hflags, hmask, hback, Option.bind_eq_bind, Option.bind_some,
      if_neg hused]
    exact hrelease
  · intro k hk
    rw [hcleared.entry (page + k) ⟨by omega, by omega⟩, if_pos (by omega)]
  · intro other
    rw [hcleared.used other]
    refine and_congr_right fun _ => ?_
    constructor
    · intro hall k hk
      have hne := hall k (Nat.zero_le k) hk
      rwa [hframe k hk] at hne
    · intro hall k _ hk
      rw [hframe k hk]
      exact hall k hk
  · exact releasePages_others hspace.addressable hlow hhigh (by omega)
      (fun k _ hk => hlinked k hk) haligned hrelease

/-- `kmalloc` maps a run of unmapped pages to as many free frames, and a later
`kfree` of any address inside the block takes back just that. -/
theorem kmalloc_kfree_block (kernel : Kernel) (sizePgs : UInt32)
    (hoff : ¬ kernel.heapOn) (hspace : AddressSpace kernel.machine)
    (hrun : HasRun kernel.machine sizePgs.toNat)
    (hsupplied : ∀ page, FirstFit (Free kernel.machine) sizePgs.toNat page →
      Supplied kernel.machine page sizePgs.toNat) :
    ∃ next page frame, kmalloc kernel sizePgs = some (next, pageAt page) ∧
      0xc0000 ≤ page ∧ page + sizePgs.toNat ≤ 0xffc00 ∧ AddressSpace next.machine ∧
      MapsBlock kernel.machine next.machine page sizePgs.toNat frame ∧
      ∀ later : Kernel, ¬ later.heapOn → AddressSpace later.machine →
        (∀ k < sizePgs.toNat,
          pageEntry later.machine (page + k) = pageEntry next.machine (page + k)) →
        ∀ vaddr : BitVec 32, page * 4096 ≤ vaddr.toNat →
          vaddr.toNat < (page + sizePgs.toNat) * 4096 →
          ∃ freed, kfree later vaddr = some freed ∧
            UnmapsBlock later.machine freed.machine page sizePgs.toNat frame := by
  obtain ⟨page, hfit⟩ := firstFit_of_hasRun hrun
  obtain ⟨machine, hcall, hnext, hmaps⟩ := mapsBlock hspace hfit (hsupplied page hfit)
  refine ⟨{ kernel with machine := machine }, page, _, ?_, hfit.low, hfit.high, hnext,
    hmaps, ?_⟩
  · simp only [kmalloc, if_neg hoff, hcall, Option.bind_eq_bind, Option.bind_some]
  · intro later hlaterOff hlater hkept vaddr hfirst hlast
    have hlinked : LinkedPages later.machine page sizePgs.toNat sizePgs.toNat fun k =>
        BitVec.ofNat 32 (takenFrame kernel.machine page sizePgs.toNat k * 4096) :=
      fun k hk => (hkept k hk).trans (hmaps.entry k hk)
    obtain ⟨freed, hfree, hunmaps⟩ := unmapsBlock hlater hfit.low hfit.high hmaps.bound
      hlinked hfirst hlast
    refine ⟨{ later with machine := freed }, ?_, hunmaps⟩
    simp only [kfree, if_neg hlaterOff, hfree, Option.bind_eq_bind, Option.bind_some]

/-! ## Two pages after boot -/

theorem bootKernel_addressSpace : AddressSpace bootKernel.machine := by
  have honly : ∀ slot ∈ lowSlots, bootKernel.machine.pde slot ≠ 0 →
      slot = 768 ∧ bootKernel.machine.pde slot = 0x2001 := by
    intro slot hslot hne
    by_cases hmem : slot ∈ kernelSlots
    · exact bootKernel_pde hmem hne
    · exfalso
      apply hne
      change (if (1 : BitVec 20) = 1 ∧ slot = 1023 then (0x1001 : BitVec 32)
        else if (1 : BitVec 20) = 1 ∧ slot = 768 then 0x2001 else 0) = 0
      rw [if_neg fun h => hslot h.2, if_neg]
      rintro ⟨-, rfl⟩
      exact hmem ⟨by decide, by decide⟩
  refine ⟨⟨⟨by decide, by decide⟩, ?_, ?_, ?_⟩, ⟨by decide, by decide⟩, ?_⟩
  · intro slot hslot hne
    rw [(honly slot hslot hne).2]
    decide
  · intro slot hslot hne
    rw [(honly slot hslot hne).2]
    decide
  · intro slot hslot other hother hne hne' _
    rw [(honly slot hslot hne).1, (honly other hother hne').1]
  · intro slot hslot hne
    rw [(honly slot hslot hne).2]
    exact ⟨by decide, by decide⟩

theorem bootKernel_free : Run bootKernel.machine 2 0xc0000 := by
  intro j hj
  obtain rfl | rfl : j = 0 ∨ j = 1 := by omega
  · decide
  · decide

theorem bootKernel_supplied {page : ℕ} (hfit : FirstFit (Free bootKernel.machine) 2 page) :
    Supplied bootKernel.machine page 2 := by
  have hpage : page = 0xc0000 := by
    have hlow := hfit.low
    by_contra hother
    obtain ⟨j, hj, hused⟩ := hfit.lowest 0xc0000 le_rfl (by omega)
    exact hused (bootKernel_free j hj)
  subst hpage
  have hserved : (pmAlloc bootKernel.machine.frames).2 ≠ 0 ∧
      (pmAlloc (pmAlloc bootKernel.machine.frames).1).2 ≠ 0 := by decide +kernel
  have hfirst : Tabled bootKernel.machine 0xc0000 := by
    unfold Tabled
    decide
  have hsecond : slotOf (0xc0000 + 1) = slotOf 0xc0000 := by decide
  intro k hk mapped hmap
  obtain rfl | rfl : k = 0 ∨ k = 1 := by omega
  · obtain ⟨rfl, -⟩ := Prod.mk.inj (Option.some.inj hmap)
    exact ⟨hserved.1, .inl hfirst⟩
  · have haddr := (samePages_frames bootKernel.machine
      (pmAlloc bootKernel.machine.frames).1).addressable bootKernel_addressable
    have hpage : KernelPage 0xc0000 := ⟨by decide, by decide⟩
    have htaken : Tabled (bootKernel.machine.setFrames
        (pmAlloc bootKernel.machine.frames).1) 0xc0000 := hfirst
    have hlink := map_page haddr hpage htaken
      (BitVec.ofNat 32 (pmAlloc bootKernel.machine.frames).2) (linkFlags 0 2)
    simp only [mapFresh, Option.bind_eq_bind, Option.bind_some, Bool.true_eq_false,
      if_false, if_neg hserved.1, Nat.add_zero, hlink] at hmap
    obtain ⟨rfl, -⟩ := Prod.mk.inj (Option.some.inj hmap)
    have hpde := window_pde haddr hpage htaken
      (BitVec.ofNat 32 (pmAlloc bootKernel.machine.frames).2 ||| linkFlags 0 2)
      (slotOf 0xc0000)
    refine ⟨hserved.2, .inl ?_⟩
    intro hempty
    exact htaken (hpde.symm.trans (hsecond ▸ hempty))

theorem kmalloc_kfree_block_boot :
    ∃ next page frame, kmalloc bootKernel 2 = some (next, pageAt page) ∧
      0xc0000 ≤ page ∧ page + 2 ≤ 0xffc00 ∧ AddressSpace next.machine ∧
      MapsBlock bootKernel.machine next.machine page 2 frame ∧
      ∀ later : Kernel, ¬ later.heapOn → AddressSpace later.machine →
        (∀ k < 2, pageEntry later.machine (page + k) = pageEntry next.machine (page + k)) →
        ∀ vaddr : BitVec 32, page * 4096 ≤ vaddr.toNat →
          vaddr.toNat < (page + 2) * 4096 →
          ∃ freed, kfree later vaddr = some freed ∧
            UnmapsBlock later.machine freed.machine page 2 frame :=
  kmalloc_kfree_block bootKernel 2 (by decide) bootKernel_addressSpace
    ⟨0xc0000, le_rfl, by decide, bootKernel_free⟩ fun _ hfit => bootKernel_supplied hfit

end KimisOS.PageBlocks
