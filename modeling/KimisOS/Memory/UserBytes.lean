import KimisOS.Memory.Exec
import KimisOS.Memory.PageBlocks
import KimisOS.Memory.FirstFree

/-!
# The bytes of user pages

`load_elf` writes the image of a program through its own addresses: each page gets a
fresh frame, is cleared and filled from the file.  Below, memory is what a program
reads there: a byte for each address that is mapped, and none elsewhere.
-/

namespace KimisOS.UserBytes

open KimisOS.Frames
open KimisOS.Paging
open KimisOS.Kmalloc
open KimisOS.Fork
open KimisOS.PageBlocks
open KimisOS.Exec

/-! ## Bytes -/

def addr (a : ℕ) : BitVec 32 := BitVec.ofNat 32 a

/-- A byte of a word, the lowest first. -/
def byteOf (word : BitVec 32) (k : ℕ) : BitVec 8 := word.extractLsb' (8 * k) 8

/-- The byte that is read at an address, if it is mapped. -/
def byteAt (m : Machine) (a : ℕ) : Option (BitVec 8) :=
  (m.load (addr a)).map (byteOf · (a % 4))

/-- A word with another byte. -/
def withByte (word : BitVec 32) (k : ℕ) (value : BitVec 8) : BitVec 32 :=
  (word &&& ~~~(0xff#32 <<< (8 * k))) ||| value.setWidth 32 <<< (8 * k)

/-- `*(char *)vaddr = value` -/
def storeByte (m : Machine) (vaddr : BitVec 32) (value : BitVec 8) : Option Machine := do
  let word ← m.load vaddr
  m.store vaddr (withByte word (vaddr.extractLsb' 0 2).toNat value)

theorem getLsbD_byteMask (bit : ℕ) : (0xff#32).getLsbD bit = decide (bit < 8) := by
  by_cases hbit : bit < 32
  · have hall : ∀ k : Fin 32, (0xff#32).getLsbD k = decide ((k : ℕ) < 8) := by
      decide
    exact hall ⟨bit, hbit⟩
  · rw [BitVec.getLsbD_of_ge _ _ (by omega), decide_eq_false (by omega)]

theorem byteOf_withByte (word : BitVec 32) {j k : ℕ} (hj : j < 4) (hk : k < 4)
    (value : BitVec 8) :
    byteOf (withByte word k value) j = if j = k then value else byteOf word j := by
  apply BitVec.eq_of_getLsbD_eq
  intro bit hbit
  have hword : 8 * j + bit < 32 := by omega
  simp only [byteOf, withByte, BitVec.getLsbD_extractLsb', BitVec.getLsbD_or,
    BitVec.getLsbD_and, BitVec.getLsbD_not, BitVec.getLsbD_shiftLeft, hbit, hword,
    decide_true, Bool.true_and, BitVec.getLsbD_setWidth, getLsbD_byteMask]
  by_cases hsame : j = k
  · subst hsame
    have hlt : bit < 32 := by omega
    simp [hbit, hlt]
  · rw [if_neg hsame, BitVec.getLsbD_extractLsb']
    by_cases hbelow : j < k
    · have hout : 8 * j + bit < 8 * k := by omega
      simp [hout, hbit]
    · have hpast : ¬ 8 * j + bit < 8 * k := by omega
      have hout : ¬ 8 * j + bit - 8 * k < 8 := by omega
      have hnone : value.getLsbD (8 * j + bit - 8 * k) = false :=
        BitVec.getLsbD_of_ge _ _ (by omega)
      simp [hpast, hout, hnone, hbit]

/-- `memclr` stores a zero. -/
theorem clearByte_eq (m : Machine) (vaddr : BitVec 32) :
    clearByte m vaddr = storeByte m vaddr 0 := by
  simp [clearByte, storeByte, withByte]

/-! ## Addresses -/

variable {a b c : ℕ}

theorem addr_toNat (ha : a < 2 ^ 32) : (addr a).toNat = a := by
  rw [addr, BitVec.toNat_ofNat]
  exact Nat.mod_eq_of_lt ha

theorem samePage_addr (ha : a < 2 ^ 32) (hb : b < 2 ^ 32) :
    pdIndex (addr b) = pdIndex (addr a) ∧ ptIndex (addr b) = ptIndex (addr a) ↔
      b / 4096 = a / 4096 := by
  rw [samePage_iff, ← BitVec.toNat_inj, frameOf_toNat, frameOf_toNat, addr_toNat ha,
    addr_toNat hb]

theorem wordIndex_addr (ha : a < 2 ^ 32) : (wordIndex (addr a)).toNat = a / 4 % 1024 := by
  rw [wordIndex, BitVec.extractLsb'_toNat, addr_toNat ha, Nat.shiftRight_eq_div_pow]

theorem byteIndex_addr (ha : a < 2 ^ 32) : ((addr a).extractLsb' 0 2).toNat = a % 4 := by
  rw [BitVec.extractLsb'_toNat, addr_toNat ha, Nat.shiftRight_eq_div_pow]
  omega

theorem pdIndex_addr_mem (ha : a < 0xffc00000) : pdIndex (addr a) ∈ lowSlots := by
  intro hlast
  have hvalue := congrArg BitVec.toNat hlast
  rw [pdIndex, BitVec.extractLsb'_toNat, addr_toNat (by omega),
    Nat.shiftRight_eq_div_pow] at hvalue
  have hmax : (1023 : BitVec 10).toNat = 1023 := rfl
  omega

/-! ## Frames behind pages -/

variable {m next : Machine} {frame : BitVec 20}

/-- The frame holds the directory or one of its tables. -/
def Structural (m : Machine) (frame : BitVec 20) : Prop :=
  frame = m.directory ∨ ∃ slot ∈ lowSlots, m.pde slot ≠ 0 ∧ frameOf (m.pde slot) = frame

theorem Structural.used (hspace : AddressSpace m) (hframe : Structural m frame) :
    m.frames.used frame.toNat = true := by
  rcases hframe with rfl | ⟨slot, hslot, hne, rfl⟩
  · exact hspace.directory.used
  · exact (hspace.tables slot hslot hne).used

theorem walk_eq {vaddr : BitVec 32} (hspace : AddressSpace m)
    (hslot : pdIndex vaddr ∈ lowSlots) :
    m.walk vaddr =
      if present (m.entry (pdIndex vaddr) (ptIndex vaddr)) then
        some (frameOf (m.entry (pdIndex vaddr) (ptIndex vaddr)))
      else none := by
  by_cases hempty : m.pde (pdIndex vaddr) = 0
  · have hzero : present (0 : BitVec 32) = false := rfl
    simp only [Machine.walk, Machine.entry, hempty, if_true, hzero, Bool.false_eq_true,
      if_false]
  · simp only [Machine.walk, Machine.entry, if_neg hempty,
      hspace.addressable.present _ hslot hempty, if_true]

/-- A frame without structure may be written: no page moves. -/
theorem pde_setWord (hframe : ¬ Structural m frame) (index : BitVec 10) (word : BitVec 32)
    (slot : BitVec 10) : (m.setWord frame index word).pde slot = m.pde slot :=
  setTable_pde (fun hdirectory => hframe (Or.inl hdirectory)) _ _

theorem structural_setWord (hframe : ¬ Structural m frame) (index : BitVec 10)
    (word : BitVec 32) (other : BitVec 20) :
    Structural (m.setWord frame index word) other ↔ Structural m other := by
  simp only [Structural, pde_setWord hframe, setWord_directory]

theorem walk_setWord {vaddr : BitVec 32} (hframe : ¬ Structural m frame)
    (hslot : pdIndex vaddr ∈ lowSlots) (index : BitVec 10) (word : BitVec 32) :
    (m.setWord frame index word).walk vaddr = m.walk vaddr := by
  simp only [Machine.walk, pde_setWord hframe]
  by_cases hpresent : present (m.pde (pdIndex vaddr)) = true
  · have hne : frameOf (m.pde (pdIndex vaddr)) ≠ frame := by
      intro heq
      exact hframe (Or.inr ⟨_, hslot, ne_zero_of_present hpresent, heq⟩)
    have hmem : (m.setWord frame index word).mem (frameOf (m.pde (pdIndex vaddr))) =
        m.mem (frameOf (m.pde (pdIndex vaddr))) := Function.update_of_ne hne _ _
    rw [hmem]
  · rw [if_neg hpresent, if_neg hpresent]

theorem space_setWord (hspace : AddressSpace m) (hframe : ¬ Structural m frame)
    (index : BitVec 10) (word : BitVec 32) :
    AddressSpace (m.setWord frame index word) where
  addressable := (sameTables_table (fun hdirectory => hframe (Or.inl hdirectory)) index
    word).addressable hspace.addressable
  directory := ⟨hspace.directory.ne_zero, hspace.directory.used⟩
  tables slot hslot hne := by
    rw [pde_setWord hframe] at hne ⊢
    exact ⟨(hspace.tables slot hslot hne).ne_zero, (hspace.tables slot hslot hne).used⟩

/-! ## What `map` writes -/

/-- The slot has a table, and beside the directory and its tables no frame has
changed. -/
structure MapEffect (m next : Machine) (slot : BitVec 10) : Prop where
  directory : next.directory = m.directory
  frames : next.frames = if m.pde slot = 0 then (pmAlloc m.frames).1 else m.frames
  empty : ∀ other, next.pde other = 0 ↔ m.pde other = 0 ∧ other ≠ slot
  table : ∀ other, next.pde other ≠ 0 →
    m.pde other ≠ 0 ∧ frameOf (next.pde other) = frameOf (m.pde other) ∨
      other = slot ∧ m.pde slot = 0 ∧ frameOf (next.pde other) = m.nextFrame
  mem : ∀ frame, ¬ Structural m frame → (m.pde slot = 0 → frame ≠ m.nextFrame) →
    next.mem frame = m.mem frame

theorem newTable_effect {slot : BitVec 10} (hrec : Recursive m)
    (hfresh : m.pde slot = 0 → m.nextFrame ≠ m.directory) (hnew : newTable m slot = some next) :
    MapEffect m next slot := by
  by_cases hempty : m.pde slot = 0
  · rw [newTable_of_eq hrec hempty (hfresh hempty)] at hnew
    obtain rfl := Option.some.inj hnew
    have hpde := tabled_pde (hfresh hempty) slot
    have hne := tabled_ne_zero (hfresh hempty) slot
    constructor
    · rfl
    · rw [if_pos hempty]
      rfl
    · intro other
      by_cases hother : other = slot
      · subst hother
        exact iff_of_false hne fun hboth => hboth.2 rfl
      · rw [hpde, if_neg hother]
        exact (and_iff_left hother).symm
    · intro other htable
      by_cases hother : other = slot
      · subst hother
        refine Or.inr ⟨rfl, hempty, ?_⟩
        rw [hpde, if_pos rfl, frameOf_newEntry]
      · rw [hpde, if_neg hother] at htable ⊢
        exact Or.inl ⟨htable, rfl⟩
    · intro frame hframe hapart
      funext index
      rw [tabled_mem, if_neg (hapart hempty), if_neg]
      rintro ⟨hdirectory, -⟩
      exact hframe (Or.inl hdirectory)
  · rw [newTable_of_ne hrec hempty] at hnew
    obtain rfl := Option.some.inj hnew
    refine ⟨rfl, (if_neg hempty).symm, ?_, fun other htable => Or.inl ⟨htable, rfl⟩,
      fun _ _ _ => rfl⟩
    intro other
    refine (and_iff_left_of_imp ?_).symm
    rintro hzero rfl
    exact hempty hzero

theorem MapEffect.widen {vaddr uflags : BitVec 32} {widened : Machine}
    (heffect : MapEffect m next (pdIndex vaddr)) (hrec : Recursive next)
    (huflags : uflags < 0x1000) (hwiden : widen next vaddr uflags = some widened) :
    MapEffect m widened (pdIndex vaddr) := by
  have hne : next.pde (pdIndex vaddr) ≠ 0 := by
    rw [Ne, heffect.empty]
    exact fun hboth => hboth.2 rfl
  rw [widen_eq hrec] at hwiden
  obtain rfl := Option.some.inj hwiden
  split
  · have hsame := sameTables_flags hne huflags
    constructor
    · exact heffect.directory
    · exact heffect.frames
    · intro other
      rw [hsame.empty, heffect.empty]
    · intro other htable
      rw [hsame.frame]
      exact heffect.table other (mt (hsame.empty other).mpr htable)
    · intro frame hframe hapart
      rw [← heffect.mem frame hframe hapart]
      refine Function.update_of_ne ?_ _ _
      rintro rfl
      exact hframe (Or.inl heffect.directory)
  · exact heffect

theorem MapEffect.setTable {slot : BitVec 10} (heffect : MapEffect m next slot)
    (hslot : slot ∈ lowSlots) (hne : next.pde slot ≠ 0)
    (hdirectory : frameOf (next.pde slot) ≠ next.directory) (index : BitVec 10)
    (word : BitVec 32) :
    MapEffect m (next.setWord (frameOf (next.pde slot)) index word) slot := by
  have hsame := sameTables_table hdirectory index word
  constructor
  · exact heffect.directory
  · exact heffect.frames
  · intro other
    rw [hsame.empty, heffect.empty]
  · intro other htable
    rw [hsame.frame]
    exact heffect.table other (mt (hsame.empty other).mpr htable)
  · intro frame hframe hapart
    rw [← heffect.mem frame hframe hapart]
    refine Function.update_of_ne ?_ _ _
    rintro rfl
    rcases heffect.table slot hne with ⟨hold, hsame⟩ | ⟨-, hempty, hnew⟩
    · exact hframe (Or.inr ⟨slot, hslot, hold, hsame.symm⟩)
    · exact hapart hempty hnew

theorem map_effect {vaddr paddr flags : BitVec 32} (haddr : Addressable lowSlots m)
    (hslot : pdIndex vaddr ∈ lowSlots)
    (hfresh : m.pde (pdIndex vaddr) = 0 → Fresh lowSlots m)
    (hmap : map m vaddr paddr flags = some next) : MapEffect m next (pdIndex vaddr) := by
  obtain ⟨tabled, htabled, haddr₁, hne₁, -⟩ := newTable_spec haddr hfresh
  obtain ⟨widened, hwidened, hsame, -⟩ := widen_spec haddr₁ hne₁ (userFlags_lt flags)
  have haddr₂ := hsame.addressable haddr₁
  have hne₂ : widened.pde (pdIndex vaddr) ≠ 0 := mt (hsame.empty _).mp hne₁
  have hnew := newTable_effect haddr.recursive (fun hempty => (hfresh hempty).2.1) htabled
  have hwide := hnew.widen haddr₁.recursive (userFlags_lt flags) hwidened
  have hstore := store_ptAddress haddr₂.recursive (haddr₂.present _ hslot hne₂)
    (ptIndex vaddr) (paddr ||| flags)
  simp only [map, htabled, hwidened, Option.bind_eq_bind, Option.bind_some, hstore,
    Option.some.injEq] at hmap
  obtain rfl := hmap
  exact hwide.setTable hslot hne₂ (haddr₂.notDirectory _ hslot hne₂) _ _

/-! ## Pages with frames of their own -/

/-- The number of user slots without a table. -/
@[irreducible]
def emptySlots (m : Machine) : ℕ :=
  ((Finset.range 768).filter fun slot => m.pde (BitVec.ofNat 10 slot) = 0).card

theorem MapEffect.emptySlots {slot : BitVec 10} (heffect : MapEffect m next slot)
    (hslot : slot.toNat < 768) :
    UserBytes.emptySlots m = UserBytes.emptySlots next + if m.pde slot = 0 then 1 else 0 := by
  have hne : ∀ i ∈ Finset.range 768, (BitVec.ofNat 10 i ≠ slot ↔ i ≠ slot.toNat) := by
    intro i hi
    have hlt := Finset.mem_range.mp hi
    rw [Ne, ← BitVec.toNat_inj, BitVec.toNat_ofNat, Nat.mod_eq_of_lt (by omega)]
  have herase : (Finset.range 768).filter (fun i => next.pde (BitVec.ofNat 10 i) = 0) =
      ((Finset.range 768).filter fun i => m.pde (BitVec.ofNat 10 i) = 0).erase
        slot.toNat := by
    ext i
    simp only [Finset.mem_filter, Finset.mem_erase, heffect.empty]
    constructor
    · rintro ⟨hi, hempty, hother⟩
      exact ⟨(hne i hi).mp hother, hi, hempty⟩
    · rintro ⟨hother, hi, hempty⟩
      exact ⟨hi, hempty, (hne i hi).mpr hother⟩
  have hself : BitVec.ofNat 10 slot.toNat = slot := by
    rw [BitVec.ofNat_toNat, BitVec.setWidth_eq]
  unfold UserBytes.emptySlots
  rw [herase]
  by_cases hempty : m.pde slot = 0
  · rw [if_pos hempty]
    refine (Finset.card_erase_add_one ?_).symm
    rw [Finset.mem_filter, hself]
    exact ⟨Finset.mem_range.mpr hslot, hempty⟩
  · rw [if_neg hempty, Finset.erase_eq_of_notMem]
    · exact (Nat.add_zero _).symm
    · rw [Finset.mem_filter, hself]
      exact fun hboth => hempty hboth.2

/-- What is known of memory before the image is there: the bytes of free frames, and
whether no page is mapped. -/
structure Start where
  garbage : BitVec 8 → Prop
  bare : Prop

/-- Each of the pages has a frame of its own, and frames are left for some more. -/
structure Loading (start : Start) (room : ℕ) (pages : Set ℕ) (m : Machine) : Prop where
  space : AddressSpace m
  user : ∀ q ∈ pages, q < 0xc0000
  page : ∀ a, a / 4096 ∈ pages → ∃ frame, m.walk (addr a) = some frame ∧
    m.frames.used frame.toNat = true ∧ ¬ Structural m frame
  apart : ∀ a b, a / 4096 ∈ pages → b / 4096 ∈ pages →
    m.walk (addr a) = m.walk (addr b) → a / 4096 = b / 4096
  garbage : ∀ frame, m.frames.used frame.toNat = false →
    ∀ index, ∀ k < 4, start.garbage (byteOf (m.mem frame index) k)
  bare : start.bare → ∀ a < 0xffc00000, a / 4096 ∉ pages → m.walk (addr a) = none
  room : Succeeds m.frames (room + emptySlots m)

variable {start : Start} {room : ℕ} {pages : Set ℕ}

theorem Loading.below (hm : Loading start room pages m) (ha : a / 4096 ∈ pages) :
    a < 0xc0000000 := by
  have := hm.user _ ha
  omega

/-- A byte of a page and what it is stored over. -/
theorem byteAt_eq (hwalk : m.walk (addr a) = some frame) :
    byteAt m a = some (byteOf (m.mem frame (wordIndex (addr a))) (a % 4)) := by
  simp only [byteAt, Machine.load, hwalk, Option.map_some]

theorem Loading.byteAt_none (hm : Loading start room pages m) (hbare : start.bare)
    (ha : a < 0xffc00000) (hout : a / 4096 ∉ pages) : byteAt m a = none := by
  rw [byteAt, Machine.load, hm.bare hbare a ha hout]
  rfl

theorem Loading.setWord (hm : Loading start room pages m) (ha : a / 4096 ∈ pages)
    (hwalk : m.walk (addr a) = some frame) (index : BitVec 10) (word : BitVec 32) :
    Loading start room pages (m.setWord frame index word) := by
  obtain ⟨frame', hwalk', hused, hframe⟩ := hm.page a ha
  obtain rfl : frame' = frame := Option.some.inj (hwalk'.symm.trans hwalk)
  have hsame : ∀ c < 0xffc00000,
      (m.setWord frame' index word).walk (addr c) = m.walk (addr c) := fun c hc =>
    walk_setWord hframe (pdIndex_addr_mem hc) index word
  constructor
  · exact space_setWord hm.space hframe index word
  · exact hm.user
  · intro c hc
    obtain ⟨frame, hwalk, hused, hplain⟩ := hm.page c hc
    have := hm.below hc
    exact ⟨frame, (hsame c (by omega)).trans hwalk, hused,
      mt (structural_setWord hframe index word frame).mp hplain⟩
  · intro b c hb hc heq
    have := hm.below hb
    have := hm.below hc
    rw [hsame b (by omega), hsame c (by omega)] at heq
    exact hm.apart b c hb hc heq
  · intro frame hfree
    have hne : frame ≠ frame' := by
      rintro rfl
      rw [setWord_frames, hused] at hfree
      cases hfree
    have hmem : (m.setWord frame' index word).mem frame = m.mem frame :=
      Function.update_of_ne hne _ _
    rw [hmem]
    exact hm.garbage frame hfree
  · intro hbare c hc hout
    rw [hsame c (by omega)]
    exact hm.bare hbare c hc hout
  · have hslots : emptySlots (m.setWord frame' index word) = emptySlots m := by
      unfold emptySlots
      simp only [pde_setWord hframe]
    rw [hslots, setWord_frames]
    exact hm.room

/-- A byte is stored on one of the pages, and no other changes. -/
theorem Loading.storeByte (hm : Loading start room pages m) (ha : a / 4096 ∈ pages)
    (value : BitVec 8) :
    ∃ next, storeByte m (addr a) value = some next ∧ Loading start room pages next ∧
      ∀ c, c / 4096 ∈ pages → byteAt next c = if c = a then some value else byteAt m c := by
  obtain ⟨frame, hwalk, hused, hframe⟩ := hm.page a ha
  have hlow := hm.below ha
  set word := withByte (m.mem frame (wordIndex (addr a))) (a % 4) value with hword
  refine ⟨m.setWord frame (wordIndex (addr a)) word, ?_, hm.setWord ha hwalk _ _, ?_⟩
  · simp only [UserBytes.storeByte, Machine.load, hwalk, Option.bind_eq_bind,
      Option.bind_some, Machine.store, byteIndex_addr (show a < 2 ^ 32 by omega), hword]
  · intro c hc
    obtain ⟨frame', hwalk', -, -⟩ := hm.page c hc
    have hlow' := hm.below hc
    have hsame := walk_setWord hframe (@pdIndex_addr_mem c (by omega))
      (wordIndex (addr a)) word
    rw [byteAt_eq (hsame.trans hwalk'), byteAt_eq hwalk', setWord_mem]
    by_cases hplace : frame' = frame ∧ wordIndex (addr c) = wordIndex (addr a)
    · obtain ⟨rfl, hindex⟩ := hplace
      have hpage := hm.apart c a hc ha (hwalk'.trans hwalk.symm)
      have hwordIndex := congrArg BitVec.toNat hindex
      rw [wordIndex_addr (by omega), wordIndex_addr (by omega)] at hwordIndex
      have hbyte : c = a ↔ c % 4 = a % 4 := by omega
      rw [if_pos ⟨rfl, hindex⟩, hword, hindex,
        byteOf_withByte _ (Nat.mod_lt _ (by decide)) (Nat.mod_lt _ (by decide))]
      simp only [hbyte]
      split
      · rfl
      · rfl
    · have hne : c ≠ a := by
        rintro rfl
        exact hplace ⟨Option.some.inj (hwalk'.symm.trans hwalk), rfl⟩
      rw [if_neg hplace, if_neg hne]

/-- Where no page is mapped before, a byte elsewhere cannot be stored. -/
theorem Loading.storeByte_none (hm : Loading start room pages m) (hbare : start.bare)
    (hlow : a < 0xffc00000) (ha : a / 4096 ∉ pages) (value : BitVec 8) :
    UserBytes.storeByte m (addr a) value = none := by
  simp only [UserBytes.storeByte, Machine.load, hm.bare hbare a hlow ha,
    Option.bind_eq_bind, Option.bind_none]

/-! ## Loops over bytes -/

theorem addr_add (a k : ℕ) : addr a + BitVec.ofNat 32 k = addr (a + k) := by
  rw [addr, addr, BitVec.ofNat_add]

theorem Loading.clearBytes (hm : Loading start room pages m) {count : ℕ}
    (hpages : ∀ c, a ≤ c → c < a + count → c / 4096 ∈ pages) :
    ∃ next, Exec.clearBytes m (addr a) count = some next ∧
      Loading start room pages next ∧ ∀ c, c / 4096 ∈ pages →
        byteAt next c = if a ≤ c ∧ c < a + count then some 0 else byteAt m c := by
  induction count with
  | zero =>
      refine ⟨m, rfl, hm, ?_⟩
      intro c _
      rw [if_neg (by omega)]
  | succ count ih =>
      obtain ⟨mid, hmid, hload, hbytes⟩ := ih fun c hlow hhigh => hpages c hlow (by omega)
      obtain ⟨next, hnext, hload', hbytes'⟩ :=
        hload.storeByte (hpages (a + count) (by omega) (by omega)) 0
      refine ⟨next, ?_, hload', ?_⟩
      · simp only [Exec.clearBytes, hmid, Option.bind_eq_bind, Option.bind_some, addr_add,
          clearByte_eq, hnext]
      · intro c hc
        rw [hbytes' c hc, hbytes c hc]
        by_cases hlast : c = a + count
        · rw [if_pos hlast, if_pos (by omega)]
        · rw [if_neg hlast]
          exact if_congr (by omega) rfl rfl

/-- The first byte that is not mapped ends the clearing. -/
theorem Loading.clearBytes_none (hm : Loading start room pages m) (hbare : start.bare)
    {count : ℕ} (hlow : a + count ≤ 0xffc00000)
    (hout : ∃ c, a ≤ c ∧ c < a + count ∧ c / 4096 ∉ pages) :
    Exec.clearBytes m (addr a) count = none := by
  induction count with
  | zero =>
      obtain ⟨c, _, _, _⟩ := hout
      omega
  | succ count ih =>
      by_cases hbefore : ∃ c, a ≤ c ∧ c < a + count ∧ c / 4096 ∉ pages
      · simp only [Exec.clearBytes, ih (by omega) hbefore, Option.bind_eq_bind,
          Option.bind_none]
      · push Not at hbefore
        obtain ⟨mid, hmid, hload, -⟩ := hm.clearBytes hbefore
        obtain ⟨c, hge, hlt, hc⟩ := hout
        have hlast : c = a + count := by
          by_contra hne
          exact hc (hbefore c hge (by omega))
        subst hlast
        simp only [Exec.clearBytes, hmid, Option.bind_eq_bind, Option.bind_some, addr_add,
          clearByte_eq, hload.storeByte_none hbare (by omega) hc]

/-- `while(count--) *ptr++ = *bytes++;` -/
def copyBytes (m : Machine) (ptr : BitVec 32) : List (BitVec 8) → Option Machine
  | [] => some m
  | byte :: bytes => do
      let stored ← storeByte m ptr byte
      copyBytes stored (ptr + BitVec.ofNat 32 1) bytes

theorem Loading.copyBytes (hm : Loading start room pages m) {bytes : List (BitVec 8)}
    (hpages : ∀ c, a ≤ c → c < a + bytes.length → c / 4096 ∈ pages) :
    ∃ next, UserBytes.copyBytes m (addr a) bytes = some next ∧
      Loading start room pages next ∧ ∀ c, c / 4096 ∈ pages →
        byteAt next c =
          if a ≤ c ∧ c < a + bytes.length then bytes[c - a]? else byteAt m c := by
  induction bytes generalizing a m with
  | nil =>
      refine ⟨m, rfl, hm, ?_⟩
      intro c _
      rw [if_neg (by simp)]
  | cons byte bytes ih =>
      rw [List.length_cons] at hpages
      obtain ⟨mid, hmid, hload, hbytes⟩ :=
        hm.storeByte (hpages a (le_refl a) (by omega)) byte
      obtain ⟨next, hnext, hload', hbytes'⟩ := @ih (a + 1) mid hload
        fun c hlow hhigh => hpages c (by omega) (by omega)
      refine ⟨next, ?_, hload', ?_⟩
      · simp only [UserBytes.copyBytes, hmid, Option.bind_eq_bind, Option.bind_some, addr_add,
          hnext]
      · intro c hc
        rw [hbytes' c hc, hbytes c hc, List.length_cons]
        by_cases hfirst : c = a
        · subst hfirst
          rw [if_neg (by omega), if_pos rfl, if_pos (by omega), Nat.sub_self,
            List.getElem?_cons_zero]
        · by_cases hinside : a + 1 ≤ c ∧ c < a + 1 + bytes.length
          · have hindex : c - a = c - (a + 1) + 1 := by omega
            rw [if_pos hinside, if_pos (by omega), hindex, List.getElem?_cons_succ]
          · rw [if_neg hinside, if_neg hfirst, if_neg (by omega)]

/-! ## A new page -/

variable {flags : BitVec 32}

theorem space_setFrames (hspace : AddressSpace m) {frames : FrameMap}
    (hused : ∀ frame : ℕ, m.frames.used frame = true → frames.used frame = true) :
    AddressSpace (m.setFrames frames) where
  addressable := ⟨hspace.addressable.recursive, hspace.addressable.present,
    hspace.addressable.notDirectory, hspace.addressable.distinct⟩
  directory := ⟨hspace.directory.ne_zero, hused _ hspace.directory.used⟩
  tables slot hslot hne :=
    ⟨(hspace.tables slot hslot hne).ne_zero, hused _ (hspace.tables slot hslot hne).used⟩

theorem fresh_of_served (hspace : AddressSpace m) (hserved : (pmAlloc m.frames).2 ≠ 0) :
    Fresh lowSlots m := by
  have hfree : m.frames.used m.nextFrame.toNat = false := (pmAlloc_fresh hserved).1
  refine ⟨nextFrame_ne_zero hserved, ?_, ?_⟩
  · intro heq
    have hused := hspace.directory.used
    rw [← heq, hfree] at hused
    cases hused
  · intro slot hslot hne heq
    have hused := (hspace.tables slot hslot hne).used
    rw [heq, hfree] at hused
    cases hused

section Effect

variable {slot : BitVec 10} (heffect : MapEffect m next slot)

include heffect

theorem MapEffect.used {frame : ℕ} (hused : m.frames.used frame = true) :
    next.frames.used frame = true := by
  rw [heffect.frames]
  split
  · exact used_pmAlloc _ hused
  · exact hused

variable (hserved : m.pde slot = 0 → (pmAlloc m.frames).2 ≠ 0)

include hserved

/-- A new table lies in a frame that was free. -/
theorem MapEffect.table_or_unused {other : BitVec 10} (hne : next.pde other ≠ 0) :
    (m.pde other ≠ 0 ∧ frameOf (next.pde other) = frameOf (m.pde other)) ∨
      frameOf (next.pde other) ≠ 0 ∧
        m.frames.used (frameOf (next.pde other)).toNat = false ∧
          next.frames.used (frameOf (next.pde other)).toNat = true := by
  obtain hold | ⟨rfl, hempty, hnew⟩ := heffect.table other hne
  · exact Or.inl hold
  · obtain ⟨hfree, htaken⟩ := pmAlloc_fresh (hserved hempty)
    refine Or.inr ?_
    rw [hnew, heffect.frames, if_pos hempty]
    exact ⟨nextFrame_ne_zero (hserved hempty), hfree, htaken⟩

theorem MapEffect.structural_or_unused {frame : BitVec 20} (hframe : Structural next frame) :
    Structural m frame ∨ m.frames.used frame.toNat = false := by
  obtain rfl | ⟨other, hmem, hne, rfl⟩ := hframe
  · exact Or.inl (Or.inl heffect.directory)
  · obtain ⟨hold, hsame⟩ | ⟨-, hunused, -⟩ := heffect.table_or_unused hserved hne
    · exact Or.inl (Or.inr ⟨other, hmem, hold, hsame.symm⟩)
    · exact Or.inr hunused

theorem MapEffect.space (hspace : AddressSpace m) (haddr : Addressable lowSlots next) :
    AddressSpace next := by
  refine ⟨haddr, ?_, ?_⟩
  · rw [heffect.directory]
    exact ⟨hspace.directory.ne_zero, heffect.used hspace.directory.used⟩
  · intro other hmem hne
    obtain ⟨hold, hsame⟩ | ⟨hzero, -, htaken⟩ := heffect.table_or_unused hserved hne
    · rw [hsame]
      have hallocated := hspace.tables other hmem hold
      exact ⟨hallocated.ne_zero, heffect.used hallocated.used⟩
    · exact ⟨hzero, htaken⟩

end Effect

/-- What a new page needs of the allocator: its frame, and another one for the table. -/
structure Serves (m : Machine) (slot : BitVec 10) (room : ℕ) : Prop where
  frame : (pmAlloc m.frames).2 ≠ 0
  table : m.pde slot = 0 → (pmAlloc (pmAlloc m.frames).1).2 ≠ 0
  room : ∀ next, MapEffect (m.setFrames (pmAlloc m.frames).1) next slot →
    Succeeds next.frames (room + emptySlots next)

theorem serves_of_room {slot : BitVec 10} (hslot : slot.toNat < 768)
    (hroom : Succeeds m.frames (room + 1 + emptySlots m)) : Serves m slot room := by
  have hcount : room + 1 + emptySlots m = room + emptySlots m + 1 := by omega
  rw [hcount] at hroom
  obtain ⟨hserved, hrest⟩ := hroom
  have hpde : ∀ other, (m.setFrames (pmAlloc m.frames).1).pde other = m.pde other :=
    fun _ => rfl
  refine ⟨hserved, ?_, ?_⟩
  · intro hempty
    have hpos : 0 < emptySlots m := by
      unfold emptySlots
      refine Finset.card_pos.mpr ⟨slot.toNat, ?_⟩
      rw [Finset.mem_filter, BitVec.ofNat_toNat, BitVec.setWidth_eq]
      exact ⟨Finset.mem_range.mpr hslot, hempty⟩
    obtain ⟨count, hsucc⟩ := Nat.exists_eq_succ_of_ne_zero (by omega : room + emptySlots m ≠ 0)
    rw [hsucc] at hrest
    exact hrest.1
  · intro next heffect
    have hslots := heffect.emptySlots hslot
    have hsame : emptySlots (m.setFrames (pmAlloc m.frames).1) = emptySlots m := by
      unfold emptySlots
      simp only [hpde]
    rw [hsame] at hslots
    rw [heffect.frames]
    by_cases hempty : (m.setFrames (pmAlloc m.frames).1).pde slot = 0
    · rw [if_pos hempty] at hslots ⊢
      rw [hslots, ← Nat.add_assoc] at hrest
      exact hrest.2
    · rw [if_neg hempty] at hslots ⊢
      rw [hslots, Nat.add_zero] at hrest
      exact hrest

/-- A page has got a frame that was free; frames in use beside the tables and frames
that are still free hold what they held. -/
structure Maps (m next : Machine) (a : ℕ) (frame : BitVec 20) : Prop where
  space : AddressSpace next
  free : m.frames.used frame.toNat = false
  taken : next.frames.used frame.toNat = true
  used : ∀ other : ℕ, m.frames.used other = true → next.frames.used other = true
  plain : ¬ Structural next frame
  structural : ∀ other, m.frames.used other.toNat = true → ¬ Structural m other →
    ¬ Structural next other
  walk : ∀ c < 0xffc00000, next.walk (addr c) =
    if c / 4096 = a / 4096 then some frame else m.walk (addr c)
  mem : ∀ other, ¬ Structural m other → ¬ Structural next other →
    next.mem other = m.mem other

theorem mapNew_maps (hspace : AddressSpace m) (ha : a < 0xc0000000)
    (hserves : Serves m (pdIndex (addr a)) room) (hflags : flags < 0x1000)
    (hpresent : present flags = true) :
    ∃ next, mapNew m (addr a) flags = some next ∧ Maps m next a m.nextFrame ∧
      Succeeds next.frames (room + emptySlots next) := by
  obtain ⟨hfree, htaken⟩ := pmAlloc_fresh hserves.frame
  set frames := (pmAlloc m.frames).1 with hframes
  have hspace₁ : AddressSpace (m.setFrames frames) :=
    space_setFrames hspace fun _ hused => used_pmAlloc _ hused
  have hslot : pdIndex (addr a) ∈ lowSlots := pdIndex_addr_mem (by omega)
  have hfresh : (m.setFrames frames).pde (pdIndex (addr a)) = 0 →
      Fresh lowSlots (m.setFrames frames) := fun hempty =>
    fresh_of_served hspace₁ (hserves.table hempty)
  obtain ⟨next, hmap, haddr, hentry⟩ := map_spec hspace₁.addressable hslot hfresh
    (BitVec.ofNat 32 (pmAlloc m.frames).2) flags
  have heffect := map_effect hspace₁.addressable hslot hfresh hmap
  have hstructural : ∀ other, Structural next other →
      Structural m other ∨ frames.used other.toNat = false :=
    fun _ => heffect.structural_or_unused hserves.table
  have hnextSpace := heffect.space hserves.table hspace₁ haddr
  refine ⟨next, hmap, ?_, hserves.room next heffect⟩
  constructor
  · exact hnextSpace
  · exact hfree
  · exact heffect.used htaken
  · intro other hother
    exact heffect.used (used_pmAlloc _ hother)
  · intro hnew
    obtain hold | hunused := hstructural _ hnew
    · have hcontra := hold.used hspace
      rw [Machine.nextFrame, hfree] at hcontra
      cases hcontra
    · rw [Machine.nextFrame, htaken] at hunused
      cases hunused
  · intro other hother hplain hnew
    obtain hold | hunused := hstructural other hnew
    · exact hplain hold
    · rw [used_pmAlloc _ hother] at hunused
      cases hunused
  · intro c hc
    have hcslot := pdIndex_addr_mem hc
    have hframe : frameOf (BitVec.ofNat 32 (pmAlloc m.frames).2 ||| flags) = m.nextFrame :=
      frameOf_or_flags _ hflags
    have hbit : present (BitVec.ofNat 32 (pmAlloc m.frames).2 ||| flags) = true := by
      rw [present_or, hpresent, Bool.or_true]
    rw [walk_eq hnextSpace hcslot, hentry _ _ hcslot]
    by_cases hpage : c / 4096 = a / 4096
    · rw [if_pos hpage, if_pos ((samePage_addr (by omega) (by omega)).mpr hpage), if_pos hbit,
        hframe]
    · have hne := mt (@samePage_addr a c (by omega) (by omega)).mp hpage
      rw [if_neg hpage, if_neg hne, walk_eq hspace hcslot]
      rfl
  · intro other hplain hnew
    refine heffect.mem other hplain ?_
    rintro hempty rfl
    have hne : next.pde (pdIndex (addr a)) ≠ 0 := by
      rw [Ne, heffect.empty]
      exact fun hboth => hboth.2 rfl
    rcases heffect.table _ hne with ⟨hold, -⟩ | ⟨-, -, hframe⟩
    · exact hold hempty
    · exact hnew (Or.inr ⟨_, hslot, hne, hframe⟩)

theorem Loading.maps (hm : Loading start (room + 1) pages m) (ha : a < 0xc0000000)
    (hmaps : Maps m next a frame) (hroom : Succeeds next.frames (room + emptySlots next)) :
    Loading start room (insert (a / 4096) pages) next := by
  -- an old page keeps its frame, which is another one than the new page has got
  have hold : ∀ c, c / 4096 ∈ pages → c / 4096 ≠ a / 4096 →
      ∃ other, next.walk (addr c) = some other ∧ m.walk (addr c) = some other ∧
        m.frames.used other.toNat = true ∧ ¬ Structural m other := by
    intro c hc hne
    obtain ⟨other, hwalk, hused, hplain⟩ := hm.page c hc
    have hlow := hm.below hc
    refine ⟨other, ?_, hwalk, hused, hplain⟩
    rw [hmaps.walk c (by omega), if_neg hne, hwalk]
  have hnew : ∀ c, c / 4096 = a / 4096 → next.walk (addr c) = some frame := by
    intro c hc
    rw [hmaps.walk c (by omega), if_pos hc]
  have hapart : ∀ b c, b / 4096 = a / 4096 → c / 4096 ∈ pages → c / 4096 ≠ a / 4096 →
      next.walk (addr b) ≠ next.walk (addr c) := by
    intro b c hb hc hne heq
    obtain ⟨other, hwalk, -, hused, -⟩ := hold c hc hne
    obtain rfl := Option.some.inj ((hnew b hb).symm.trans (heq.trans hwalk))
    rw [hmaps.free] at hused
    cases hused
  constructor
  · exact hmaps.space
  · rintro q (rfl | hq)
    · omega
    · exact hm.user q hq
  · rintro c hc
    by_cases hpage : c / 4096 = a / 4096
    · exact ⟨frame, hnew c hpage, hmaps.taken, hmaps.plain⟩
    · obtain ⟨other, hwalk, -, hused, hplain⟩ := hold c (hc.resolve_left hpage) hpage
      exact ⟨other, hwalk, hmaps.used _ hused, hmaps.structural other hused hplain⟩
  · intro b c hb hc heq
    by_cases hpage : b / 4096 = a / 4096
    · by_cases hpage' : c / 4096 = a / 4096
      · rw [hpage, hpage']
      · exact absurd heq (hapart b c hpage (hc.resolve_left hpage') hpage')
    · by_cases hpage' : c / 4096 = a / 4096
      · exact absurd heq.symm (hapart c b hpage' (hb.resolve_left hpage) hpage)
      · obtain ⟨other, hwalk, hwalk₁, -⟩ := hold b (hb.resolve_left hpage) hpage
        obtain ⟨other', hwalk', hwalk₂, -⟩ := hold c (hc.resolve_left hpage') hpage'
        refine hm.apart b c (hb.resolve_left hpage) (hc.resolve_left hpage') ?_
        rw [hwalk₁, hwalk₂, ← hwalk, ← hwalk', heq]
  · intro other hfree index k hk
    have hunused : m.frames.used other.toNat = false := by
      rw [← Bool.not_eq_true]
      intro hused
      rw [hmaps.used _ hused] at hfree
      cases hfree
    have hplain : ¬ Structural m other := by
      intro hstructural
      rw [hstructural.used hm.space] at hunused
      cases hunused
    have hplain' : ¬ Structural next other := by
      intro hstructural
      rw [hstructural.used hmaps.space] at hfree
      cases hfree
    rw [hmaps.mem other hplain hplain']
    exact hm.garbage other hunused index k hk
  · intro hbare c hc hout
    have hne : c / 4096 ≠ a / 4096 := fun heq => hout (Or.inl heq)
    rw [hmaps.walk c (by omega), if_neg hne]
    exact hm.bare hbare c hc fun hmem => hout (Or.inr hmem)
  · exact hroom

/-- `map` of a fresh frame: its bytes are what was left in it, and those of the other
pages stay. -/
theorem Loading.mapNew (hm : Loading start (room + 1) pages m) (ha : a < 0xc0000000)
    (hflags : flags < 0x1000) (hpresent : present flags = true) :
    ∃ next, Exec.mapNew m (addr a) flags = some next ∧
      Loading start room (insert (a / 4096) pages) next ∧
      (∀ c, c / 4096 ∈ pages → c / 4096 ≠ a / 4096 → byteAt next c = byteAt m c) ∧
      ∀ c, c / 4096 = a / 4096 → ∃ value, byteAt next c = some value ∧
        start.garbage value := by
  have hslot : (pdIndex (addr a)).toNat < 768 := by
    rw [pdIndex, BitVec.extractLsb'_toNat, addr_toNat (by omega), Nat.shiftRight_eq_div_pow]
    omega
  obtain ⟨next, hmap, hmaps, hroom⟩ :=
    mapNew_maps hm.space ha (serves_of_room hslot hm.room) hflags hpresent
  have hunused := hmaps.free
  have hplain : ¬ Structural m m.nextFrame := by
    intro hstructural
    rw [hstructural.used hm.space] at hunused
    cases hunused
  refine ⟨next, hmap, hm.maps ha hmaps hroom, ?_, ?_⟩
  · intro c hc hne
    obtain ⟨other, hwalk, hused, hother⟩ := hm.page c hc
    have hlow := hm.below hc
    have hwalk' : next.walk (addr c) = some other := by
      rw [hmaps.walk c (by omega), if_neg hne, hwalk]
    rw [byteAt_eq hwalk', byteAt_eq hwalk,
      hmaps.mem other hother (hmaps.structural other hused hother)]
  · intro c hc
    have hwalk : next.walk (addr c) = some m.nextFrame := by
      rw [hmaps.walk c (by omega), if_pos hc]
    refine ⟨_, byteAt_eq hwalk, ?_⟩
    rw [hmaps.mem _ hplain hmaps.plain]
    exact hm.garbage _ hunused _ _ (Nat.mod_lt _ (by decide))

end KimisOS.UserBytes
