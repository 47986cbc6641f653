import KimisOS.Memory.Exec

/-!
# Translating through a directory that is mapped

`get_paddr` reads the word of a page through the recursive slot.  `get_paddr_in_pd`
maps the table it finds in a directory at the first free page, reads a word there and
unmaps it; the mask of the address stands inside the index, and the word is the first
of the table.
-/

namespace KimisOS.Translation

open KimisOS.Frames
open KimisOS.Paging
open KimisOS.Kmalloc
open KimisOS.Exhaustion
open KimisOS.SearchRange
open KimisOS.Exec

/-- `get_paddr_in_pd`: the machine, and the word that is returned. -/
def getPaddrInPd (m : Machine) (vaddr pd : BitVec 32) : Option (Machine × BitVec 32) := do
  let _ ← getPaddr m pd
  let entry ← m.load (wordAt pd (pdIndex vaddr).toNat)
  if entry = 0 then some (m, 0)
  else
    let (mapped, pt) ← kmallocPagePaddr m (entry &&& ~~~0xfff) 1
    let ret ← mapped.load (wordAt pt ((ptIndex vaddr).setWidth 32 &&& 0xfffff000).toNat)
    let unmapped ← unmap mapped pt
    some (unmapped, ret)

/-- The address is one of the directory in use. -/
structure MapsDirectory (m : Machine) (pd : BitVec 32) : Prop where
  aligned : pd &&& 0xfff = 0
  mapped : m.walk pd = some m.directory

/-- Both functions return the same address, and what the processor translates below
the page tables is as before. -/
def TranslatesAlike (m : Machine) (vaddr pd : BitVec 32) : Prop :=
  ∃ next paddr, getPaddrInPd m vaddr pd = some (next, paddr) ∧
    getPaddr m vaddr = some paddr ∧
    ∀ other < 0xffc00000, next.walk other = m.walk other

/-- There is a page to map the table at, the first word of the table is the address of
the page, and it is not the word that is written to map the table. -/
structure FirstWordAgrees (m : Machine) (vaddr : BitVec 32) : Prop where
  found : ¬NoRun m 1
  same : m.entry (pdIndex vaddr) 0 =
    m.entry (pdIndex vaddr) (ptIndex vaddr) &&& 0xfffff000
  apart : ∀ page, FirstRun m 1 page → Tabled m page →
    frameOf (m.pde (slotOf page)) = frameOf (m.pde (pdIndex vaddr)) → indexOf page ≠ 0

/-! ## Words behind an aligned pointer -/

section Walk

variable {m base next : Machine} {vaddr pd word paddr : BitVec 32} {page index : ℕ}

theorem aligned_iff : pd &&& 0xfff = 0 ↔ pd.toNat % 4096 = 0 := by
  rw [← BitVec.toNat_inj, BitVec.toNat_and]
  have hmask : (0xfff : BitVec 32).toNat = 2 ^ 12 - 1 := rfl
  rw [hmask, Nat.and_two_pow_sub_one_eq_mod]
  rfl

/-- A word behind an aligned pointer lies in the page of the pointer. -/
theorem indices_wordAt (haligned : pd &&& 0xfff = 0) (hindex : index < 1024) :
    pdIndex (wordAt pd index) = pdIndex pd ∧ ptIndex (wordAt pd index) = ptIndex pd ∧
      wordIndex (wordAt pd index) = BitVec.ofNat 10 index := by
  have hpd := pd.isLt
  have hmod := aligned_iff.mp haligned
  have hword : (wordAt pd index).toNat = pd.toNat + index * 4 := by
    rw [wordAt, BitVec.toNat_add, BitVec.toNat_ofNat]
    omega
  refine ⟨?_, ?_, ?_⟩
  · apply BitVec.eq_of_toNat_eq
    rw [pdIndex, pdIndex, BitVec.extractLsb'_toNat, BitVec.extractLsb'_toNat, hword,
      Nat.shiftRight_eq_div_pow, Nat.shiftRight_eq_div_pow]
    omega
  · apply BitVec.eq_of_toNat_eq
    rw [ptIndex, ptIndex, BitVec.extractLsb'_toNat, BitVec.extractLsb'_toNat, hword,
      Nat.shiftRight_eq_div_pow, Nat.shiftRight_eq_div_pow]
    omega
  · apply BitVec.eq_of_toNat_eq
    rw [wordIndex, BitVec.extractLsb'_toNat, hword, Nat.shiftRight_eq_div_pow,
      BitVec.toNat_ofNat]
    omega

theorem load_wordAt (haligned : pd &&& 0xfff = 0) (hindex : index < 1024) :
    m.load (wordAt pd index) =
      (m.walk pd).map fun frame => m.mem frame (BitVec.ofNat 10 index) := by
  obtain ⟨hslot, hpage, hword⟩ := indices_wordAt haligned hindex
  have hwalk : m.walk (wordAt pd index) = m.walk pd := by
    rw [Machine.walk, Machine.walk, hslot, hpage]
  rw [Machine.load, hwalk, hword]
  cases m.walk pd with
  | none => rfl
  | some frame => rfl

@[simp]
theorem pageAt_aligned_zero (page : ℕ) : pageAt page &&& 0xfff = 0 := by
  rw [aligned_iff, pageAt, BitVec.toNat_shiftLeft, BitVec.toNat_ofNat, Nat.shiftLeft_eq]
  omega

/-- The index is masked to 0. -/
theorem ptIndex_masked (vaddr : BitVec 32) :
    ((ptIndex vaddr).setWidth 32 &&& 0xfffff000).toNat = 0 := by
  have hindex := (ptIndex vaddr).isLt
  have hwidth : ((ptIndex vaddr).setWidth 32).toNat < 4096 := by
    rw [BitVec.toNat_setWidth]
    omega
  have hzero : (ptIndex vaddr).setWidth 32 &&& 0xfffff000 = 0 := by
    apply BitVec.eq_of_getLsbD_eq
    intro bit hbit
    rw [BitVec.getLsbD_and, getLsbD_addressMask hbit]
    by_cases hhigh : 12 ≤ bit
    · rw [getLsbD_of_flags (show (ptIndex vaddr).setWidth 32 < 0x1000 from hwidth) hhigh]
      simp
    · simp [hhigh]
  rw [hzero]
  rfl

theorem present_of_free (hword : word &&& 0xfff = 0) : present word = false := by
  have hbit := getLsbD_of_aligned hword (show 0 < 12 by omega)
  exact hbit

/-- The processor takes two words for the same: the same word, or two that are not
present. -/
def SameWord (word word' : BitVec 32) : Prop :=
  word' = word ∨ (present word = false ∧ present word' = false)

theorem walk_congr (hslot : SameWord (m.pde (pdIndex vaddr)) (next.pde (pdIndex vaddr)))
    (hpage : present (m.pde (pdIndex vaddr)) = true →
      SameWord (m.mem (frameOf (m.pde (pdIndex vaddr))) (ptIndex vaddr))
        (next.mem (frameOf (m.pde (pdIndex vaddr))) (ptIndex vaddr))) :
    next.walk vaddr = m.walk vaddr := by
  rw [Machine.walk, Machine.walk]
  dsimp only
  by_cases hpresent : present (m.pde (pdIndex vaddr)) = true
  · obtain hsame | ⟨habsent, -⟩ := hslot
    · rw [hsame, if_pos hpresent, if_pos hpresent]
      obtain hsame | ⟨habsent, habsent'⟩ := hpage hpresent
      · rw [hsame]
      · rw [if_neg (Bool.eq_false_iff.mp habsent'), if_neg (Bool.eq_false_iff.mp habsent)]
    · rw [habsent] at hpresent
      cases hpresent
  · rw [if_neg hpresent]
    obtain hsame | ⟨-, habsent⟩ := hslot
    · rw [hsame, if_neg hpresent]
    · rw [if_neg (by simp [habsent])]

/-- A word that was not present may be cleared. -/
theorem walk_setWord_zero {frame : BitVec 20} {position : BitVec 10}
    (hword : present (m.mem frame position) = false) (other : BitVec 32) :
    (m.setWord frame position 0).walk other = m.walk other := by
  have hmem : ∀ frame' position', SameWord (m.mem frame' position')
      ((m.setWord frame position 0).mem frame' position') := by
    intro frame' position'
    rw [setWord_mem]
    by_cases hplace : frame' = frame ∧ position' = position
    · obtain ⟨rfl, rfl⟩ := hplace
      rw [if_pos ⟨rfl, rfl⟩]
      exact .inr ⟨hword, by simp [present]⟩
    · rw [if_neg hplace]
      exact .inl rfl
  exact walk_congr (hmem _ _) fun _ => hmem _ _

/-- A new table translates nothing. -/
theorem walk_tabled (hm : Walkable m) (hunused : Unused Set.univ m) {slot : BitVec 10}
    (hempty : m.pde slot = 0) {other : BitVec 32} (hother : pdIndex other ≠ 1023) :
    (m.tabled slot).walk other = m.walk other := by
  have hpde := tabled_pde hm.nextFrame slot (pdIndex other)
  by_cases hnew : pdIndex other = slot
  · have hzero : present (0 : BitVec 32) = false := by simp [present]
    rw [Machine.walk, Machine.walk, hpde]
    dsimp only
    rw [if_pos hnew, frameOf_newEntry, tabled_mem, if_pos rfl, hnew, hempty, hzero]
    simp
  · rw [if_neg hnew] at hpde
    apply walk_congr
    · exact .inl hpde
    · intro hpresent
      have hne := ne_zero_of_present hpresent
      have hframe := hunused.2 _ (Set.mem_univ (pdIndex other)) hne
      have htable := hm.notDirectory _ hother hne
      rw [tabled_mem, if_neg hframe, if_neg fun h => htable h.1]
      exact .inl rfl

end Walk

/-! ## Mapping a table and unmapping it -/

section Window

variable {m base : Machine} {vaddr pd word paddr : BitVec 32} {page : ℕ}

/-- The machine in which the word of the page is written. -/
structure Based (m base : Machine) (page : ℕ) : Prop where
  walkable : Walkable base
  tabled : base.pde (slotOf page) ≠ 0
  same : m.pde (slotOf page) ≠ 0 → base = m
  made : m.pde (slotOf page) = 0 → base = m.tabled (slotOf page)
  mapped : ∀ paddr, mapWindow m page 1 paddr 1 = some
    (base.setWord (frameOf (base.pde (slotOf page))) (indexOf page)
      (paddr ||| linkFlags 0 1))

theorem exists_based (hm : Walkable m) (page : ℕ) : ∃ base, Based m base page := by
  have hflags : linkFlags 0 1 &&& ptUser ||| linkFlags 0 1 &&& ptUserRw = 0 := by decide
  obtain ⟨base, hbase, hwalk, hne⟩ := hm.newTable (slotOf page)
  refine ⟨base, hwalk, hne, ?_, ?_, ?_⟩
  · intro htabled
    rw [newTable_of_ne hm.recursive htabled] at hbase
    exact (Option.some.inj hbase).symm
  · intro hempty
    rw [newTable_of_eq hm.recursive hempty hm.nextFrame] at hbase
    exact (Option.some.inj hbase).symm
  · intro paddr
    have hwiden : widen base (pageAt page) 0 = some base := by
      rw [widen_eq hwalk.recursive, if_neg (by simp)]
    have hstore := store_ptAddress hwalk.recursive (hwalk.present _ hne) (indexOf page)
      (paddr ||| linkFlags 0 1)
    have hslot : pdIndex (pageAt page) = slotOf page := rfl
    have hindex : ptIndex (pageAt page) = indexOf page := rfl
    have hzero : paddr + BitVec.ofNat 32 0 * 4096 = paddr := by simp
    simp only [mapWindow, map, Nat.add_zero, Option.bind_eq_bind, Option.bind_some, hflags,
      hslot, hindex, hbase, hwiden, hzero, hstore]

/-- The word that is overwritten is not present. -/
theorem Based.free (hbased : Based m base page) (hm : Walkable m) (hfree : Free m page) :
    present (base.mem (frameOf (base.pde (slotOf page))) (indexOf page)) = false := by
  by_cases hempty : m.pde (slotOf page) = 0
  · rw [hbased.made hempty, tabled_pde hm.nextFrame, if_pos rfl, frameOf_newEntry,
      tabled_mem, if_pos rfl]
    simp [present]
  · rw [hbased.same hempty]
    rw [Free, pageEntry, Machine.entry, if_neg hempty] at hfree
    exact present_of_free hfree

theorem Based.index_ne (hbased : Based m base page) (hm : Walkable m)
    (hfree : Free m page)
    (htable : frameOf (base.pde (slotOf page)) = base.directory) : indexOf page ≠ 1023 := by
  have hlast : slotOf page = 1023 := by
    by_contra hslot
    exact hbased.walkable.notDirectory _ hslot hbased.tabled htable
  exact not_last_of_free hm hfree hlast

/-- The slot of the page keeps its table when the word is written. -/
theorem Based.pde (hbased : Based m base page) (hm : Walkable m) (hfree : Free m page)
    (word : BitVec 32) :
    (base.setWord (frameOf (base.pde (slotOf page))) (indexOf page) word).pde
      (slotOf page) = base.pde (slotOf page) := by
  by_cases hlast : slotOf page = 1023
  · rw [Machine.pde, setWord_directory, setWord_mem, if_neg]
    · rfl
    · rintro ⟨-, hindex⟩
      exact not_last_of_free hm hfree hlast (hindex.symm.trans hlast)
  · exact setTable_pde (hbased.walkable.notDirectory _ hlast hbased.tabled) _ _

/-- What is read through the page is the first word of the frame. -/
theorem Based.load (hbased : Based m base page) (hm : Walkable m) (hfree : Free m page)
    (paddr : BitVec 32) :
    (base.setWord (frameOf (base.pde (slotOf page))) (indexOf page)
        (paddr ||| linkFlags 0 1)).load (wordAt (pageAt page) 0) =
      some ((base.setWord (frameOf (base.pde (slotOf page))) (indexOf page)
        (paddr ||| linkFlags 0 1)).mem (frameOf paddr) 0) := by
  have hpde := hbased.pde hm hfree (paddr ||| linkFlags 0 1)
  have hentry := pageEntry_setWord hbased.walkable hbased.tabled (not_last_of_free hm hfree)
    (paddr ||| linkFlags 0 1)
  have hne : (base.setWord (frameOf (base.pde (slotOf page))) (indexOf page)
      (paddr ||| linkFlags 0 1)).pde (slotOf page) ≠ 0 := by
    rw [hpde]
    exact hbased.tabled
  rw [pageEntry, Machine.entry, if_neg hne, hpde] at hentry
  have hslot : pdIndex (pageAt page) = slotOf page := rfl
  have hindex : ptIndex (pageAt page) = indexOf page := rfl
  rw [load_wordAt (pageAt_aligned_zero page) (by omega), Machine.walk, hslot, hindex, hpde]
  dsimp only
  rw [if_pos (hbased.walkable.present _ hbased.tabled), hentry,
    if_pos (present_linkFlags _ _ _), frameOf_linked]
  rfl

theorem Based.unmap (hbased : Based m base page) (hm : Walkable m) (hfree : Free m page)
    (word : BitVec 32) :
    Paging.unmap (base.setWord (frameOf (base.pde (slotOf page))) (indexOf page) word)
        (pageAt page) =
      some (base.setWord (frameOf (base.pde (slotOf page))) (indexOf page) 0) := by
  have hpde := hbased.pde hm hfree word
  have hrec := hbased.walkable.recursive.setWord word (hbased.index_ne hm hfree)
  have hslot : pdIndex (pageAt page) = slotOf page := rfl
  have hindex : ptIndex (pageAt page) = indexOf page := rfl
  simp only [Paging.unmap, load_pdAddress hrec, hslot, hindex, hpde, Option.bind_eq_bind,
    Option.bind_some, if_neg hbased.tabled]
  rw [store_ptAddress hrec, hpde]
  · simp only [Machine.setWord, Function.update_self, Function.update_idem]
  · rw [hpde]
    exact hbased.walkable.present _ hbased.tabled

theorem Based.walk (hbased : Based m base page) (hm : Walkable m)
    (hunused : Unused Set.univ m) (hfree : Free m page) {other : BitVec 32}
    (hother : pdIndex other ≠ 1023) :
    (base.setWord (frameOf (base.pde (slotOf page))) (indexOf page) 0).walk other =
      m.walk other := by
  rw [walk_setWord_zero (hbased.free hm hfree)]
  by_cases hempty : m.pde (slotOf page) = 0
  · rw [hbased.made hempty]
    exact walk_tabled hm hunused hempty hother
  · rw [hbased.same hempty]

end Window

/-! ## When the addresses agree -/

section Agree

variable {m base : Machine} {vaddr pd : BitVec 32} {page : ℕ}

theorem getEntry_walkable (hm : Walkable m) (vaddr : BitVec 32) :
    getEntry m vaddr = some (m.entry (pdIndex vaddr) (ptIndex vaddr)) := by
  simp only [getEntry, load_pdAddress hm.recursive, Option.bind_eq_bind, Option.bind_some,
    Machine.entry]
  by_cases hempty : m.pde (pdIndex vaddr) = 0
  · rw [if_pos hempty, if_pos hempty]
  · rw [if_neg hempty, if_neg hempty, load_ptAddress hm.recursive (hm.present _ hempty)]

theorem getPaddr_walkable (hm : Walkable m) (vaddr : BitVec 32) : getPaddr m vaddr =
    some (m.entry (pdIndex vaddr) (ptIndex vaddr) &&& 0xfffff000) := by
  simp only [getPaddr, getEntry_walkable hm, Option.bind_eq_bind, Option.bind_some]

theorem MapsDirectory.load (hpd : MapsDirectory m pd) (slot : BitVec 10) :
    m.load (wordAt pd slot.toNat) = some (m.pde slot) := by
  rw [load_wordAt hpd.aligned slot.isLt, hpd.mapped, BitVec.ofNat_toNat,
    BitVec.setWidth_eq]
  rfl

theorem getPaddrInPd_empty (hm : Walkable m) (hpd : MapsDirectory m pd)
    (hempty : m.pde (pdIndex vaddr) = 0) : getPaddrInPd m vaddr pd = some (m, 0) := by
  simp only [getPaddrInPd, getPaddr_walkable hm, hpd.load, Option.bind_eq_bind,
    Option.bind_some, if_pos hempty]

theorem frameOf_masked (word : BitVec 32) : frameOf (word &&& ~~~0xfff) = frameOf word :=
  frameOf_address word

theorem getPaddrInPd_found (hm : Walkable m) (hpd : MapsDirectory m pd)
    (htable : m.pde (pdIndex vaddr) ≠ 0) (hrun : FirstRun m 1 page)
    (hbased : Based m base page) (hfree : Free m page) :
    getPaddrInPd m vaddr pd =
      some (base.setWord (frameOf (base.pde (slotOf page))) (indexOf page) 0,
        (base.setWord (frameOf (base.pde (slotOf page))) (indexOf page)
          ((m.pde (pdIndex vaddr) &&& ~~~0xfff) ||| linkFlags 0 1)).mem
            (frameOf (m.pde (pdIndex vaddr))) 0) := by
  simp only [getPaddrInPd, getPaddr_walkable hm, hpd.load, Option.bind_eq_bind,
    Option.bind_some, if_neg htable, kmallocPagePaddr_found hrun, hbased.mapped,
    Option.map_some, ptIndex_masked, hbased.load hm hfree, hbased.unmap hm hfree,
    frameOf_masked]

/-- Where the table is mapped over its own first word. -/
def Overwrites (m : Machine) (vaddr : BitVec 32) (page : ℕ) : Prop :=
  Tabled m page ∧ frameOf (m.pde (slotOf page)) = frameOf (m.pde (pdIndex vaddr)) ∧
    indexOf page = 0

theorem firstWord_of_not_overwrites (hm : Walkable m) (hunused : Unused Set.univ m)
    (hlast : pdIndex vaddr ≠ 1023) (htable : m.pde (pdIndex vaddr) ≠ 0)
    (hbased : Based m base page) (hnot : ¬Overwrites m vaddr page) (word : BitVec 32) :
    (base.setWord (frameOf (base.pde (slotOf page))) (indexOf page) word).mem
      (frameOf (m.pde (pdIndex vaddr))) 0 = m.entry (pdIndex vaddr) 0 := by
  rw [Machine.entry, if_neg htable]
  by_cases hempty : m.pde (slotOf page) = 0
  · have hframe := hunused.2 _ (Set.mem_univ (pdIndex vaddr)) htable
    have hdirectory := hm.notDirectory _ hlast htable
    have hnew : frameOf (base.pde (slotOf page)) = m.nextFrame := by
      rw [hbased.made hempty, tabled_pde hm.nextFrame, if_pos rfl, frameOf_newEntry]
    rw [setWord_mem, hnew, if_neg fun h => hframe h.1, hbased.made hempty, tabled_mem,
      if_neg hframe, if_neg fun h => hdirectory h.1]
  · rw [hbased.same hempty, setWord_mem, if_neg]
    rintro ⟨hframe, hindex⟩
    exact hnot ⟨hempty, hframe.symm, hindex.symm⟩

theorem firstWord_of_overwrites (hbased : Based m base page)
    (hover : Overwrites m vaddr page) (word : BitVec 32) :
    (base.setWord (frameOf (base.pde (slotOf page))) (indexOf page) word).mem
      (frameOf (m.pde (pdIndex vaddr))) 0 = word := by
  obtain ⟨htabled, hframe, hindex⟩ := hover
  rw [hbased.same htabled, setWord_mem, if_pos ⟨hframe.symm, hindex.symm⟩]

/-- An address has no flags. -/
theorem masked_ne_linked (word paddr : BitVec 32) :
    word &&& 0xfffff000 ≠ paddr ||| linkFlags 0 1 := by
  intro heq
  have hpresent := present_linkFlags paddr 0 1
  rw [← heq, present, BitVec.getLsbD_and, getLsbD_addressMask (by omega)] at hpresent
  simp at hpresent

/-- Without a free page the null pointer is read, and unmapped. -/
theorem not_translatesAlike_of_noRun (hm : Walkable m) (hpd : MapsDirectory m pd)
    (htable : m.pde (pdIndex vaddr) ≠ 0) (hnone : NoRun m 1) :
    ¬TranslatesAlike m vaddr pd := by
  rintro ⟨next, paddr, hcall, -, hwalk⟩
  have hsearch : searchPages m 1 = some none := hm.findPages_none hnone _ _
  have hslot : pdIndex (0 : BitVec 32) = 0 := by decide
  have hindex : ptIndex (0 : BitVec 32) = 0 := by decide
  have hfirst := hwalk 0 (by decide)
  simp only [getPaddrInPd, getPaddr_walkable hm, hpd.load, Option.bind_eq_bind,
    Option.bind_some, if_neg htable, kmallocPagePaddr, hsearch, ptIndex_masked,
    load_wordAt (show (0 : BitVec 32) &&& 0xfff = 0 by decide) (show 0 < 1024 by omega)]
    at hcall
  cases hzero : m.walk 0 with
  | none =>
      rw [hzero] at hcall
      cases hcall
  | some frame =>
      have hne : m.pde 0 ≠ 0 := by
        intro hempty
        rw [Machine.walk, hslot, hempty] at hzero
        simp [present] at hzero
      have hframe := hm.notDirectory 0 (by decide) hne
      have hunmap : unmap m 0 = some (m.setWord (frameOf (m.pde 0)) 0 0) := by
        simp only [unmap, load_pdAddress hm.recursive, hslot, hindex, Option.bind_eq_bind,
          Option.bind_some, if_neg hne]
        exact store_ptAddress hm.recursive (hm.present _ hne) _ _
      have hpde : (m.setWord (frameOf (m.pde 0)) 0 0).pde 0 = m.pde 0 :=
        setTable_pde hframe _ _
      rw [hzero, hunmap] at hcall
      obtain ⟨rfl, -⟩ := Prod.mk.inj (Option.some.inj hcall)
      rw [hzero, Machine.walk, hslot, hindex, hpde] at hfirst
      dsimp only at hfirst
      have hcleared : (m.setWord (frameOf (m.pde 0)) 0 0).mem (frameOf (m.pde 0)) 0 = 0 := by
        rw [setWord_mem, if_pos ⟨rfl, rfl⟩]
      rw [if_pos (hm.present _ hne), hcleared] at hfirst
      simp [present] at hfirst

/-- The two translations agree exactly where the table of the address is missing, or
its first word says the same as the word of the page. -/
theorem translatesAlike_iff (hm : Walkable m) (hunused : Unused Set.univ m)
    (hpd : MapsDirectory m pd) (hrange : InRange vaddr) :
    TranslatesAlike m vaddr pd ↔
      m.pde (pdIndex vaddr) = 0 ∨ FirstWordAgrees m vaddr := by
  have hlast : pdIndex vaddr ≠ 1023 := (pdIndex_mem_tableSlots hrange).2
  by_cases htable : m.pde (pdIndex vaddr) = 0
  · refine iff_of_true ⟨m, 0, getPaddrInPd_empty hm hpd htable, ?_, fun _ _ => rfl⟩
      (.inl htable)
    rw [getPaddr_walkable hm, Machine.entry, if_pos htable]
    rfl
  · by_cases hnone : NoRun m 1
    · exact iff_of_false (not_translatesAlike_of_noRun hm hpd htable hnone)
        (not_or.mpr ⟨htable, fun hagrees => hagrees.found hnone⟩)
    · obtain ⟨page, hrun⟩ := hm.firstRun hnone
      obtain ⟨base, hbased⟩ := exists_based hm page
      have hfree : Free m page := hm.pagesFree_true.mp hrun.free 0 (by omega)
      have hcall := getPaddrInPd_found hm hpd htable hrun hbased hfree
      constructor
      · intro halike
        obtain ⟨next, paddr, hreturn, hpaddr, -⟩ := halike
        rw [getPaddr_walkable hm, Option.some.injEq] at hpaddr
        rw [hcall, Option.some.injEq] at hreturn
        have hvalue := (Prod.mk.inj hreturn).2
        rw [← hpaddr] at hvalue
        have hnot : ¬Overwrites m vaddr page := by
          intro hover
          rw [firstWord_of_overwrites hbased hover] at hvalue
          exact masked_ne_linked _ _ hvalue.symm
        rw [firstWord_of_not_overwrites hm hunused hlast htable hbased hnot] at hvalue
        refine .inr ⟨hnone, hvalue, ?_⟩
        intro other hother htabled hframe hindex
        have hsame : searchPages m 1 = some (some page) := (searchPages_iff m 1 page).mpr hrun
        rw [(searchPages_iff m 1 other).mpr hother] at hsame
        obtain rfl : other = page := by simpa using hsame
        exact hnot ⟨htabled, hframe, hindex⟩
      · rintro (hempty | hagrees)
        · exact absurd hempty htable
        · have hnot : ¬Overwrites m vaddr page := fun hover =>
            hagrees.apart page hrun hover.1 hover.2.1 hover.2.2
          refine ⟨_, _, hcall, ?_, ?_⟩
          · rw [getPaddr_walkable hm,
              firstWord_of_not_overwrites hm hunused hlast htable hbased hnot,
              hagrees.same]
          · intro other hother
            refine hbased.walk hm hunused hfree ?_
            intro hslot
            have hindex : (pdIndex other).toNat = 1023 := by rw [hslot]; rfl
            rw [pdIndex, BitVec.extractLsb'_toNat, Nat.shiftRight_eq_div_pow] at hindex
            have hhigh : other.toNat < 0xffc00000 := hother
            omega

end Agree

/-! ## An address space with two user tables -/

/-- The directory in frame 1 names a table with two pages in frame 2, an empty one in
frame 4, and an empty kernel table in frame 3. -/
def userSpace : Machine where
  mem frame index :=
    if frame = 1 then
      if index = 1023 then 0x1001
      else if index = 768 then 0x3001
      else if index = 1 then 0x2007
      else if index = 3 then 0x4007
      else 0
    else if frame = 2 then if index = 0 then 0x5007 else if index = 1 then 0x6007 else 0
    else 0
  cr3 := 0x1000
  frames := ⟨fun _ => 0xff, 0x1ffff⟩

theorem userSpace_pde (slot : BitVec 10) : userSpace.pde slot =
    if slot = 1023 then 0x1001 else if slot = 768 then 0x3001
    else if slot = 1 then 0x2007 else if slot = 3 then 0x4007 else 0 := rfl

theorem userSpace_directory : userSpace.directory = 1 := by decide

theorem userSpace_walkable : Walkable userSpace := by
  refine ⟨⟨by decide, by decide⟩, ?_, ?_, by decide, by decide⟩
  · intro slot hne
    rw [userSpace_pde] at hne ⊢
    split_ifs at hne ⊢
    all_goals first | decide | exact absurd rfl hne
  · intro slot hlast hne
    rw [userSpace_pde, if_neg hlast] at hne ⊢
    rw [userSpace_directory]
    split_ifs at hne ⊢
    all_goals decide

theorem userSpace_unused : Unused Set.univ userSpace := by
  have hnext : userSpace.nextFrame = 0 := by decide
  refine ⟨by rw [hnext, userSpace_directory]; decide, ?_⟩
  intro slot _ hne
  rw [userSpace_pde] at hne ⊢
  rw [hnext]
  split_ifs at hne ⊢
  all_goals first | decide | exact absurd rfl hne

theorem userSpace_mapsDirectory : MapsDirectory userSpace 0xfffff000 :=
  ⟨by decide, by decide⟩

theorem userSpace_run : Run userSpace 1 0xc0000 := by
  intro j hj
  obtain rfl : j = 0 := by omega
  decide

theorem userSpace_firstRun {page : ℕ} (hrun : FirstRun userSpace 1 page) : page = 0xc0000 := by
  have hlow := hrun.low
  by_contra hne
  have hused := hrun.lowest 0xc0000 le_rfl (by omega)
  exact userSpace_walkable.pagesFree_false.mp hused userSpace_run

/-- In a table without pages every word is 0. -/
theorem translatesAlike_emptyTable : TranslatesAlike userSpace 0xc05000 0xfffff000 := by
  refine (translatesAlike_iff userSpace_walkable userSpace_unused userSpace_mapsDirectory
    ⟨by decide, by decide⟩).mpr (.inr ⟨fun hnone => hnone _ userSpace_run, by decide, ?_⟩)
  intro page hrun _ hframe
  rw [userSpace_firstRun hrun] at hframe
  exact absurd hframe (by decide)

/-- The second page of a table is translated to the word of the first. -/
theorem not_translatesAlike_secondPage : ¬TranslatesAlike userSpace 0x401000 0xfffff000 := by
  obtain ⟨page, hrun⟩ := userSpace_walkable.firstRun fun hnone => hnone _ userSpace_run
  obtain ⟨base, hbased⟩ := exists_based userSpace_walkable page
  have hfree : Free userSpace page :=
    userSpace_walkable.pagesFree_true.mp hrun.free 0 (by omega)
  have hcall := getPaddrInPd_found userSpace_walkable userSpace_mapsDirectory
    (show userSpace.pde (pdIndex 0x401000) ≠ 0 by decide) hrun hbased hfree
  have hnot : ¬Overwrites userSpace 0x401000 page := by
    rintro ⟨-, hframe, -⟩
    rw [userSpace_firstRun hrun] at hframe
    exact absurd hframe (by decide)
  rintro ⟨next, paddr, hreturn, hpaddr, -⟩
  rw [hcall, firstWord_of_not_overwrites userSpace_walkable userSpace_unused (by decide)
    (by decide) hbased hnot, Option.some.injEq] at hreturn
  rw [getPaddr_walkable userSpace_walkable, Option.some.injEq] at hpaddr
  have hvalue := (Prod.mk.inj hreturn).2
  rw [← hpaddr] at hvalue
  exact absurd hvalue (by decide)

end KimisOS.Translation
