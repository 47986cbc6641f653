import KimisOS.Memory.Kfree

/-!
# Live pointers over runs

Over any run of `kmalloc`, `kmalloc_page_paddr`, `heap_init` and `kfree` every
live pointer keeps its pages and its frames to itself.  What `kfree` makes of
one depends on `heap_base` alone: as long as it is null the pages of the tables
are released, and from then on the blocks of the heap.
-/

namespace KimisOS.Kfree

open KimisOS.Run
open KimisOS.Frames
open KimisOS.Paging
open KimisOS.HeapMap
open KimisOS.Kmalloc
open KimisOS.Fork

/-! ## The invariant -/

def Held.page (held : Held) : ℕ := pageOf held.addr

/-- The word that maps page `k`, without its flags. -/
def Held.word (held : Held) (k : ℕ) : BitVec 32 :=
  match held.origin with
  | .taken frames => BitVec.ofNat 32 (frames.getD k 0 * 4096)
  | .named paddr => paddr + BitVec.ofNat 32 k * 4096

def Held.Covers (held : Held) (page : ℕ) : Prop :=
  held.page ≤ page ∧ page < held.page + held.pages

/-- The pages of the pointer are linked in the kernel half. -/
structure Placed (m : Machine) (held : Held) : Prop where
  addr : held.addr = pageAt held.page
  pos : 0 < held.pages
  low : 0xc0000 ≤ held.page
  high : held.page + held.pages ≤ 0xffc00
  linked : LinkedPages m held.page held.pages held.pages held.word
  aligned : ∀ k < held.pages, held.word k &&& 0xfff = 0
  length : ∀ frames, held.origin = .taken frames → frames.length = held.pages

/-- A frame that `kmalloc` has taken and nothing has given back. -/
structure KeptFrame (m : Machine) (frame : ℕ) : Prop where
  bound : frame < 2 ^ 20
  used : m.frames.used frame = true
  notDirectory : BitVec.ofNat 20 frame ≠ m.directory
  notTable : ¬ IsTable m (BitVec.ofNat 20 frame)

/-- Two pointers share no page, and no frame that `kmalloc` took. -/
def Held.Apart (left right : Held) : Prop :=
  (∀ page, left.Covers page → ¬ right.Covers page) ∧
    ∀ frame ∈ left.frames, frame ∉ right.frames

/-- The heap occupies mapped pages from `base` on, and no live pointer into the
tables points there. -/
structure HeapAt (kernel : Kernel) (live : List Held) (base : ℕ) : Prop where
  heapBase : kernel.heap.heapBase.toBitVec = pageAt base
  low : 0xc0000 ≤ base
  high : base + kernel.heap.maxIndex ≤ 0xffc00
  mapped : ∀ k < kernel.heap.maxIndex, ¬ Free kernel.machine (base + k)
  apart : ∀ held ∈ live, ∀ page, held.Covers page →
    page < base ∨ base + kernel.heap.maxIndex ≤ page

structure KfreeInv (state : KfreeState) : Prop where
  shared : SharedHalf {state.kernel.machine.directory} state.kernel.machine
  placed : ∀ held ∈ state.held, Placed state.kernel.machine held
  kept : ∀ held ∈ state.held, ∀ frame ∈ held.frames,
    KeptFrame state.kernel.machine frame
  apart : state.held.Pairwise Held.Apart
  heapOff : ¬ state.kernel.heapOn →
    state.kernel.heap.heapMapSize = 0 ∧ state.blocks = []
  heapOn : state.kernel.heapOn → HeapInv ⟨state.kernel.heap, state.blocks⟩ ∧
    ∃ base, HeapAt state.kernel state.held base

theorem Held.Apart.symm {left right : Held} (hapart : left.Apart right) :
    right.Apart left :=
  ⟨fun page hright hleft => hapart.1 page hleft hright,
    fun frame hright hleft => hapart.2 frame hleft hright⟩

theorem inv_booted {kernel : Kernel} (hbooted : Booted kernel) :
    KfreeInv ⟨kernel, [], []⟩ where
  shared := hbooted.shared
  placed held hheld := by simp at hheld
  kept held hheld := by simp at hheld
  apart := List.Pairwise.nil
  heapOff _ := ⟨hbooted.noHeap, rfl⟩
  heapOn hon := absurd hon hbooted.heapOff

/-! ## Mapping keeps the invariant -/

theorem not_free_of_linked {m : Machine} {page sizePgs count : ℕ}
    {word : ℕ → BitVec 32} (hlinked : LinkedPages m page sizePgs count word) {k : ℕ}
    (hk : k < count) : ¬ Free m (page + k) :=
  not_free_of_present (hlinked k hk) (present_linkFlags _ _ _)

theorem Placed.not_free {m : Machine} {held : Held} (hplaced : Placed m held)
    {page : ℕ} (hcovers : held.Covers page) : ¬ Free m page := by
  obtain ⟨hlow, hhigh⟩ := hcovers
  have hpage := not_free_of_linked hplaced.linked
    (show page - held.page < held.pages by omega)
  rwa [show held.page + (page - held.page) = page by omega] at hpage

/-- A page that is in use is not one of those a search has found. -/
theorem outside_of_not_free {m : Machine} {page count other : ℕ}
    (hfree : ∀ j < count, Free m (page + j)) (hused : ¬ Free m other) :
    other < page ∨ page + count ≤ other := by
  by_contra hin
  have hhere := hfree (other - page) (by omega)
  rw [show page + (other - page) = other by omega] at hhere
  exact hused hhere

/-- Pages are mapped where nothing was mapped. -/
structure Mapped (m next : Machine) (page count : ℕ) : Prop where
  keeps : Extends m next
  same : SameOutside m next page count
  free : ∀ j < count, Free m (page + j)

theorem Mapped.entry {m next : Machine} {page count : ℕ}
    (hmapped : Mapped m next page count) {other : ℕ} (hother : KernelPage other)
    (hused : ¬ Free m other) : pageEntry next other = pageEntry m other :=
  hmapped.same other hother (outside_of_not_free hmapped.free hused)

theorem Mapped.not_free {m next : Machine} {page count : ℕ}
    (hmapped : Mapped m next page count) {other : ℕ} (hother : KernelPage other)
    (hused : ¬ Free m other) : ¬ Free next other := by
  rw [Free, hmapped.entry hother hused]
  exact hused

theorem Placed.mapped {m next : Machine} {page count : ℕ} {held : Held}
    (hplaced : Placed m held) (hmapped : Mapped m next page count) :
    Placed next held where
  addr := hplaced.addr
  pos := hplaced.pos
  low := hplaced.low
  high := hplaced.high
  linked k hk := by
    have hlow := hplaced.low
    have hhigh := hplaced.high
    rw [hmapped.entry ⟨by omega, by omega⟩ (not_free_of_linked hplaced.linked hk)]
    exact hplaced.linked k hk
  aligned := hplaced.aligned
  length := hplaced.length

theorem KeptFrame.extends {m next : Machine} {frame : ℕ} (hkept : KeptFrame m frame)
    (hextends : Extends m next) : KeptFrame next frame where
  bound := hkept.bound
  used := hextends.used frame hkept.used
  notDirectory := by
    rw [hextends.directory]
    exact hkept.notDirectory
  notTable := by
    apply hextends.not_table _ hkept.notTable
    rw [toNat_frame hkept.bound]
    exact hkept.used

theorem HeapAt.mapped_pages {kernel : Kernel} {live : List Held} {base page count : ℕ}
    (hat : HeapAt kernel live base) {next : Machine}
    (hmapped : Mapped kernel.machine next page count) :
    HeapAt { kernel with machine := next } live base where
  heapBase := hat.heapBase
  low := hat.low
  high := hat.high
  mapped k hk := by
    have hlow := hat.low
    have hhigh := hat.high
    have hk' : k < kernel.heap.maxIndex := hk
    exact hmapped.not_free ⟨by omega, by omega⟩ (hat.mapped k hk)
  apart := hat.apart

theorem KfreeInv.mapped {state : KfreeState} (hinv : KfreeInv state) {next : Machine}
    {page count : ℕ} (hmapped : Mapped state.kernel.machine next page count) :
    KfreeInv { state with kernel := { state.kernel with machine := next } } where
  shared := hmapped.keeps.shared
  placed held hheld := (hinv.placed held hheld).mapped hmapped
  kept held hheld frame hframe :=
    (hinv.kept held hheld frame hframe).extends hmapped.keeps
  apart := hinv.apart
  heapOff := hinv.heapOff
  heapOn hon := by
    obtain ⟨hheap, base, hat⟩ := hinv.heapOn hon
    exact ⟨hheap, base, hat.mapped_pages hmapped⟩

/-! ## New pointers -/

theorem aligned_iff (word : BitVec 32) :
    word &&& 0xfff = 0 ↔ word.toNat % 4096 = 0 := by
  have hmask : (word &&& 0xfff).toNat = word.toNat % 4096 := by
    rw [BitVec.toNat_and]
    exact Nat.and_two_pow_sub_one_eq_mod _ 12
  rw [← hmask, ← BitVec.toNat_inj]
  rfl

theorem pageOf_pageAt {page : ℕ} (hpage : KernelPage page) :
    pageOf (pageAt page) = page := by
  rw [pageOf, hpage.pageAt_toNat, Nat.mul_div_cancel _ (by decide)]

theorem pageAt_ne_zero {page : ℕ} (hpage : KernelPage page) :
    pageAt page ≠ 0 := by
  intro hzero
  have hvalue := congrArg BitVec.toNat hzero
  have hlow := hpage.1
  rw [hpage.pageAt_toNat] at hvalue
  simp at hvalue
  omega

theorem kmallocPagePaddr_spec {m : Machine} (hshared : SharedHalf {m.directory} m)
    {paddr : BitVec 32} {sizePgs : ℕ} (hplace : WindowPlaceable m paddr sizePgs) :
    ∃ next page, Kmalloc.kmallocPagePaddr m paddr sizePgs = some (next, pageAt page) ∧
      0xc0000 ≤ page ∧ page + sizePgs ≤ 0xffc00 ∧ Mapped m next page sizePgs ∧
      LinkedPages next page sizePgs sizePgs
        (fun k => paddr + BitVec.ofNat 32 k * 4096) := by
  obtain ⟨page, hfit, hspares⟩ := hplace
  obtain ⟨next, hmap, hextends, hsame, hlinked⟩ :=
    mapWindow_spec hshared hfit.low hfit.high hspares le_rfl
  refine ⟨next, page, ?_, hfit.low, hfit.high, ⟨hextends, hsame, hfit.run⟩, hlinked⟩
  simp only [Kmalloc.kmallocPagePaddr, searchPages_eq hshared.addressable hfit, hmap,
    Option.bind_eq_bind, Option.bind_some]

theorem kmallocPages_spec {m : Machine} (hshared : SharedHalf {m.directory} m)
    {sizePgs : ℕ} (hplace : Placeable m sizePgs) {next : Machine} {addr : BitVec 32}
    (hcall : kmallocPages m sizePgs = some (next, addr)) :
    ∃ page, 0xc0000 ≤ page ∧ page + sizePgs ≤ 0xffc00 ∧
      Mapped m next page sizePgs ∧
      (addr ≠ 0 → addr = pageAt page ∧
        LinkedPages next page sizePgs sizePgs
          (fun k => BitVec.ofNat 32 (takenFrame m page sizePgs k * 4096)) ∧
        ∀ k < sizePgs, TookFrame m next (takenFrame m page sizePgs k)) := by
  obtain ⟨page, hfit, hspares⟩ := hplace
  simp only [kmallocPages, searchPages_eq hshared.addressable hfit,
    Option.bind_eq_bind, Option.bind_some, Option.bind_eq_some_iff] at hcall
  obtain ⟨⟨mapped, served⟩, hmap, hresult⟩ := hcall
  obtain ⟨rfl, rfl⟩ := Prod.mk.inj (Option.some.inj hresult)
  obtain ⟨hextends, hsame, hserved⟩ :=
    mapFresh_spec hshared hfit.low hfit.high hspares le_rfl hmap
  refine ⟨page, hfit.low, hfit.high, ⟨hextends, hsame, hfit.run⟩, ?_⟩
  intro hne
  cases served with
  | false => exact absurd rfl hne
  | true => exact ⟨rfl, hserved rfl⟩

/-- A new pointer to pages that were free before it was handed out. -/
theorem KfreeInv.push {state : KfreeState} (hinv : KfreeInv state) {next : Machine}
    {held : Held}
    (hmapped : Mapped state.kernel.machine next held.page held.pages)
    (hplaced : Placed next held)
    (hkept : ∀ frame ∈ held.frames, KeptFrame next frame ∧
      state.kernel.machine.frames.used frame = false) :
    KfreeInv { state with
      kernel := { state.kernel with machine := next }
      held := held :: state.held } := by
  have hold := hinv.mapped hmapped
  constructor
  · exact hold.shared
  · intro other hother
    rcases List.mem_cons.mp hother with rfl | hother
    · exact hplaced
    · exact hold.placed other hother
  · intro other hother frame hframe
    rcases List.mem_cons.mp hother with rfl | hother
    · exact (hkept frame hframe).1
    · exact hold.kept other hother frame hframe
  · refine List.pairwise_cons.mpr ⟨?_, hinv.apart⟩
    intro other hother
    constructor
    · intro page hcovers hcovered
      have hused := (hinv.placed other hother).not_free hcovered
      have hout := outside_of_not_free hmapped.free hused
      obtain ⟨hlow, hhigh⟩ := hcovers
      omega
    · intro frame hframe hframe'
      have hused := (hinv.kept other hother frame hframe').used
      rw [(hkept frame hframe).2] at hused
      cases hused
  · exact hinv.heapOff
  · intro hon
    obtain ⟨hheap, base, hat⟩ := hinv.heapOn hon
    have hat' := hat.mapped_pages hmapped
    refine ⟨hheap, base, hat'.heapBase, hat'.low, hat'.high, hat'.mapped, ?_⟩
    intro other hother page hcovers
    rcases List.mem_cons.mp hother with rfl | hother
    · by_contra hin
      have hused := hat.mapped (page - base) (by
        change ¬ (page < base ∨ base + state.kernel.heap.maxIndex ≤ page) at hin
        omega)
      have hbase : base ≤ page := by omega
      rw [show base + (page - base) = page by omega] at hused
      have hout := outside_of_not_free hmapped.free hused
      obtain ⟨hlow, hhigh⟩ := hcovers
      omega
    · exact hat.apart other hother page hcovers

theorem inv_kmallocPagePaddr {state next : KfreeState} {paddr : BitVec 32}
    {sizePgs : UInt32} (hinv : KfreeInv state)
    (hok : Admissible state (.kmallocPagePaddr paddr sizePgs))
    (hstep : step state (.kmallocPagePaddr paddr sizePgs) = some next) :
    KfreeInv next := by
  obtain ⟨hsome, haligned, hplace⟩ := hok
  obtain ⟨mapped, page, hcall, hlow, hhigh, hmapped, hlinked⟩ :=
    kmallocPagePaddr_spec hinv.shared hplace
  have hpos : 0 < sizePgs.toNat := by
    by_contra hzero
    exact hsome (UInt32.toNat_inj.mp (by simpa using hzero))
  have hpage : KernelPage page := ⟨hlow, by omega⟩
  simp only [step, hcall, Option.bind_eq_bind, Option.bind_some,
    if_neg (pageAt_ne_zero hpage), Option.some.injEq] at hstep
  subst hstep
  have hof := pageOf_pageAt hpage
  apply hinv.push
  · change Mapped _ _ (pageOf (pageAt page)) sizePgs.toNat
    rwa [hof]
  · constructor
    · change pageAt page = pageAt (pageOf (pageAt page))
      rw [hof]
    · exact hpos
    · change _ ≤ pageOf (pageAt page)
      rwa [hof]
    · change pageOf (pageAt page) + _ ≤ _
      rwa [hof]
    · change LinkedPages mapped (pageOf (pageAt page)) _ _ _
      rwa [hof]
    · intro k _
      change (paddr + BitVec.ofNat 32 k * 4096) &&& 0xfff = 0
      rw [aligned_iff] at haligned ⊢
      simp only [BitVec.toNat_add, BitVec.toNat_mul, BitVec.toNat_ofNat,
        BitVec.ofNat_eq_ofNat]
      omega
    · intro frames hframes
      cases hframes
  · intro frame hframe
    simp [Held.frames] at hframe

theorem getD_map_range (frame : ℕ → ℕ) {count k : ℕ} (hk : k < count) :
    ((List.range count).map frame).getD k 0 = frame k := by
  simp [List.getD, List.getElem?_map, List.getElem?_range hk]

theorem kmalloc_off {kernel : Kernel} (hoff : ¬ kernel.heapOn) {sizePgs : UInt32}
    {next : Kernel} {addr : BitVec 32}
    (hcall : kmalloc kernel sizePgs = some (next, addr)) :
    ∃ machine, kmallocPages kernel.machine sizePgs.toNat = some (machine, addr) ∧
      next = { kernel with machine := machine } := by
  simp only [kmalloc, if_neg hoff, Option.bind_eq_bind, Option.bind_eq_some_iff]
    at hcall
  obtain ⟨⟨machine, result⟩, hpages, hresult⟩ := hcall
  obtain ⟨rfl, rfl⟩ := Prod.mk.inj (Option.some.inj hresult)
  exact ⟨machine, hpages, rfl⟩

/-- `kmalloc` before `heap_init`. -/
theorem inv_kmalloc_off {state next : KfreeState} {sizePgs : UInt32}
    (hinv : KfreeInv state) (hoff : ¬ state.kernel.heapOn)
    (hok : Admissible state (.kmalloc sizePgs))
    (hstep : step state (.kmalloc sizePgs) = some next) : KfreeInv next := by
  obtain ⟨hsome, hplace, -⟩ := hok
  have hpos : 0 < sizePgs.toNat := by
    by_contra hzero
    exact hsome (UInt32.toNat_inj.mp (by simpa using hzero))
  simp only [step, Option.bind_eq_bind, Option.bind_eq_some_iff] at hstep
  obtain ⟨⟨kernel, addr⟩, hcall, hresult⟩ := hstep
  obtain ⟨machine, hpages, rfl⟩ := kmalloc_off hoff hcall
  obtain ⟨page, hlow, hhigh, hmapped, hserved⟩ :=
    kmallocPages_spec hinv.shared (hplace hoff) hpages
  by_cases hnull : addr = 0
  · simp only [if_pos hnull, Option.some.injEq] at hresult
    subst hresult
    exact hinv.mapped hmapped
  · obtain ⟨rfl, hlinked, htook⟩ := hserved hnull
    have hpage : KernelPage page := ⟨hlow, by omega⟩
    have hof := pageOf_pageAt hpage
    simp only [if_neg hnull, if_neg hoff, hof, Option.some.injEq] at hresult
    subst hresult
    apply hinv.push
    · change Mapped _ _ (pageOf (pageAt page)) sizePgs.toNat
      rwa [hof]
    · constructor
      · change pageAt page = pageAt (pageOf (pageAt page))
        rw [hof]
      · exact hpos
      · change _ ≤ pageOf (pageAt page)
        rwa [hof]
      · change pageOf (pageAt page) + _ ≤ _
        rwa [hof]
      · change LinkedPages machine (pageOf (pageAt page)) _ _ _
        rw [hof]
        intro k hk
        rw [hlinked k hk]
        simp only [Held.word]
        rw [getD_map_range _ hk]
      · intro k hk
        simp only [Held.word]
        rw [getD_map_range _ hk, aligned_iff, BitVec.toNat_ofNat]
        omega
      · intro frames hframes
        obtain rfl := Origin.taken.inj hframes
        simp
    · intro frame hframe
      obtain ⟨k, hk, rfl⟩ := List.mem_map.mp hframe
      have hnew := htook k (List.mem_range.mp hk)
      exact ⟨⟨hnew.bound, hnew.after, hnew.notDirectory, hnew.notTable⟩, hnew.before⟩

/-! ## `heap_init` -/

theorem heapPages_toNat (sizeBytes : UInt32) :
    (heapPages sizeBytes).toNat =
      (sizeBytes.toNat + pageSizeBytes - 1) % 2 ^ 32 / pageSizeBytes := by
  have hlt := sizeBytes.toNat_lt
  simp only [heapPages, pageSizeBytes, UInt32.toNat_div, UInt32.toNat_sub,
    UInt32.toNat_add, UInt32.reduceToNat]
  omega

theorem heapInit_maxIndex_le (sizeBytes heapBase : UInt32) (oldMap : ℕ → BitVec 8) :
    (HeapMap.heapInit sizeBytes oldMap heapBase).maxIndex ≤
      (heapPages sizeBytes).toNat := by
  rw [heapPages_toNat]
  simp only [HeapMap.heapInit, Heap.maxIndex]
  omega

/-- `heap_init` before the heap is set up: two calls of `kmalloc`. -/
theorem heapInit_off {kernel next : Kernel} (hoff : ¬ kernel.heapOn)
    {sizeBytes : UInt32} {oldMap : ℕ → BitVec 8}
    (hcall : heapInit kernel sizeBytes oldMap = some next) :
    ∃ mapped heapMap based heapBase,
      kmallocPages kernel.machine (heapMapSizePages sizeBytes).toNat =
        some (mapped, heapMap) ∧
      kmallocPages mapped (heapPages sizeBytes).toNat = some (based, heapBase) ∧
      heapBase ≠ 0 ∧ next =
        ⟨based, HeapMap.heapInit sizeBytes oldMap (UInt32.ofBitVec heapBase)⟩ := by
  simp only [heapInit, Option.bind_eq_bind, Option.bind_eq_some_iff] at hcall
  obtain ⟨⟨first, heapMap⟩, hfirst, ⟨second, heapBase⟩, hsecond, hdone⟩ := hcall
  obtain ⟨mapped, hmapPages, rfl⟩ := kmalloc_off (by exact hoff) hfirst
  obtain ⟨based, hheapPages, rfl⟩ := kmalloc_off (by exact hoff) hsecond
  split at hdone
  · cases hdone
  · rename_i hnonnull
    exact ⟨mapped, heapMap, based, heapBase, hmapPages, hheapPages,
      fun hzero => hnonnull (.inr hzero), (Option.some.inj hdone).symm⟩

theorem inv_heapInit_step {state next : KfreeState} {sizeBytes : UInt32}
    {oldMap : ℕ → BitVec 8} (hinv : KfreeInv state)
    (hok : Admissible state (.heapInit sizeBytes oldMap))
    (hstep : step state (.heapInit sizeBytes oldMap) = some next) :
    KfreeInv next := by
  obtain ⟨hoff, hplace, hplace'⟩ := hok
  simp only [step, Option.bind_eq_bind, Option.bind_eq_some_iff] at hstep
  obtain ⟨kernel, hcall, hresult⟩ := hstep
  obtain ⟨mapped, heapMap, based, heapBase, hmapPages, hheapPages, hnonnull, rfl⟩ :=
    heapInit_off hoff hcall
  obtain ⟨page, -, -, hfirstMapped, -⟩ :=
    kmallocPages_spec hinv.shared hplace hmapPages
  have hmid := hinv.mapped hfirstMapped
  obtain ⟨base, hlow, hhigh, hsecondMapped, hserved⟩ :=
    kmallocPages_spec hmid.shared (hplace' _ _ hmapPages) hheapPages
  have hlast := hmid.mapped hsecondMapped
  obtain ⟨rfl, hlinked, -⟩ := hserved hnonnull
  obtain rfl := Option.some.inj hresult
  have hmax := heapInit_maxIndex_le sizeBytes (UInt32.ofBitVec (pageAt base)) oldMap
  have hbaseOn : (UInt32.ofBitVec (pageAt base)) ≠ 0 := by
    intro hzero
    exact hnonnull (congrArg UInt32.toBitVec hzero)
  constructor
  · exact hlast.shared
  · exact hlast.placed
  · exact hlast.kept
  · exact hlast.apart
  · intro hoff'
    exact absurd hbaseOn hoff'
  · intro _
    have hblocks : state.blocks = [] := (hinv.heapOff hoff).2
    rw [hblocks]
    refine ⟨inv_heapInit _ _ _, base, rfl, hlow, ?_, ?_, ?_⟩
    · exact le_trans (Nat.add_le_add_left hmax base) hhigh
    · intro k hk
      exact not_free_of_linked hlinked (lt_of_lt_of_le hk hmax)
    · intro held hheld other hcovers
      have hplaced := hmid.placed held hheld
      have hout := outside_of_not_free hsecondMapped.free
        (hplaced.not_free hcovers)
      change other < base ∨ base + (HeapMap.heapInit sizeBytes oldMap
        (UInt32.ofBitVec (pageAt base))).maxIndex ≤ other
      omega

/-! ## With the heap set up -/

theorem HeapAt.heapBase_toNat {kernel : Kernel} {live : List Held} {base : ℕ}
    (hat : HeapAt kernel live base) : kernel.heap.heapBase.toNat = base * 4096 := by
  have hlow := hat.low
  have hhigh := hat.high
  rw [← UInt32.toNat_toBitVec, hat.heapBase, pageAt, BitVec.toNat_shiftLeft,
    BitVec.toNat_ofNat, Nat.shiftLeft_eq]
  omega

theorem HeapAt.pageAddress {kernel : Kernel} {live : List Held} {base : ℕ}
    (hat : HeapAt kernel live base) (index : ℕ) :
    (heapIndexToAddress kernel.heap index).toBitVec = pageAt (base + index) := by
  have hlow := hat.low
  have hhigh := hat.high
  have hbase := hat.heapBase_toNat
  apply BitVec.eq_of_toNat_eq
  rw [UInt32.toNat_toBitVec, heapIndexToAddress, UInt32.toNat_add, hbase,
    UInt32.toNat_ofNat', pageAt, BitVec.toNat_shiftLeft, BitVec.toNat_ofNat,
    Nat.shiftLeft_eq, pageSizeBytes]
  omega

/-- The heap changes, its place does not. -/
theorem HeapAt.reshape {kernel : Kernel} {live : List Held} {base : ℕ}
    (hat : HeapAt kernel live base) {heap : Heap}
    (hshape : heap.shape = kernel.heap.shape) :
    HeapAt { kernel with heap := heap } live base := by
  have hmax : heap.maxIndex = kernel.heap.maxIndex := Heap.maxIndex_eq hshape
  simp only [Heap.shape, Prod.mk.injEq] at hshape
  constructor
  · change heap.heapBase.toBitVec = _
    rw [hshape.2.1]
    exact hat.heapBase
  · exact hat.low
  · change base + heap.maxIndex ≤ _
    rw [hmax]
    exact hat.high
  · intro k hk
    exact hat.mapped k (hmax ▸ hk)
  · intro held hheld page hcovers
    change page < base ∨ base + heap.maxIndex ≤ page
    rw [hmax]
    exact hat.apart held hheld page hcovers

theorem heapOn_of_shape {kernel : Kernel} {heap : Heap}
    (hshape : heap.shape = kernel.heap.shape) (hon : kernel.heapOn) :
    ({ kernel with heap := heap } : Kernel).heapOn := by
  simp only [Heap.shape, Prod.mk.injEq] at hshape
  change heap.heapBase ≠ 0
  rw [hshape.2.1]
  exact hon

/-- A new heap with the same place. -/
theorem KfreeInv.reheap {state : KfreeState} (hinv : KfreeInv state)
    (hon : state.kernel.heapOn) {heap : Heap} {blocks : List Block}
    (hshape : heap.shape = state.kernel.heap.shape) (hheap : HeapInv ⟨heap, blocks⟩) :
    KfreeInv { state with
      kernel := { state.kernel with heap := heap }
      blocks := blocks } where
  shared := hinv.shared
  placed := hinv.placed
  kept := hinv.kept
  apart := hinv.apart
  heapOff hoff := absurd (heapOn_of_shape hshape hon) hoff
  heapOn _ := by
    obtain ⟨-, base, hat⟩ := hinv.heapOn hon
    exact ⟨hheap, base, hat.reshape hshape⟩

/-- `kmalloc` after `heap_init`. -/
theorem inv_kmalloc_on {state next : KfreeState} {sizePgs : UInt32}
    (hinv : KfreeInv state) (hon : state.kernel.heapOn)
    (hok : Admissible state (.kmalloc sizePgs))
    (hstep : step state (.kmalloc sizePgs) = some next) : KfreeInv next := by
  obtain ⟨hsome, -, hserved⟩ := hok
  have hpos : 0 < sizePgs.toNat := by
    by_contra hzero
    exact hsome (UInt32.toNat_inj.mp (by simpa using hzero))
  obtain ⟨hheap, base, hat⟩ := hinv.heapOn hon
  have hbound : state.kernel.heap.maxIndex ≤ 2 ^ 20 := hheap.bound
  have hfirst : state.kernel.heap.heapFirstFree = 0 := hheap.first
  by_cases hfits : Fits state.kernel.heap sizePgs.toNat
  · obtain ⟨lowest, hfree, -, halloc⟩ := heapAlloc_of_fits hbound hfirst hpos hfits
    have hlow := hat.low
    have hhigh := hat.high
    have hend := hfree.1
    have haddr := hat.pageAddress lowest
    have hne : pageAt (base + lowest) ≠ 0 := pageAt_ne_zero ⟨by omega, by omega⟩
    simp only [step, kmalloc, if_pos hon, halloc, haddr, if_neg hne,
      Option.bind_eq_bind, Option.bind_some, Option.some.injEq] at hstep
    subst hstep
    rw [← haddr]
    exact hinv.reheap hon (markBlock_shape _ _ _ _) (inv_alloc hheap hpos hfree)
  · obtain ⟨hzero, hlast⟩ := (hserved hon).resolve_left hfits
    have halloc := heapAlloc_of_not_fits hbound hfirst hfits hzero hlast
    simp only [step, kmalloc, if_pos hon, halloc, Option.bind_eq_bind,
      Option.bind_some, if_true, Option.some.injEq] at hstep
    subst hstep
    exact hinv

theorem setHeapIndex_of_ge (heap : Heap) {index : ℕ} (hindex : heap.maxIndex ≤ index)
    (flags : BitVec 8) : setHeapIndex heap index flags = heap := by
  rw [setHeapIndex, if_pos hindex]

/-- An address whose index is not one of the heap's frees nothing. -/
theorem heapFree_of_ge {heap : Heap} {addr : UInt32}
    (hindex : heap.maxIndex ≤ freeIndex heap addr) : heapFree heap addr = heap := by
  simp only [heapFree]
  by_cases hlarger : freeIndex heap addr > heap.maxIndex
  · rw [if_pos hlarger]
  · have hsame : freeIndex heap addr = heap.maxIndex := by omega
    have hzero := getHeapIndex_of_ge heap (le_refl heap.maxIndex)
    have hnotLast : ¬ getHeapIndex heap heap.maxIndex &&& kmallocLinkLast ≠ 0 := by
      rw [hzero]
      decide
    have hstart : blockStart heap heap.maxIndex = heap.maxIndex := by
      cases hmax : heap.maxIndex with
      | zero =>
          rw [hmax] at hnotLast
          rw [blockStart, if_neg hnotLast]
      | succ last =>
          rw [hmax] at hnotLast
          rw [blockStart, if_neg hnotLast]
    rw [if_neg hlarger, hsame, hstart]
    simp only [releaseFrom, hzero, setHeapIndex_of_ge heap (le_refl heap.maxIndex)]
    rw [if_pos (by decide)]

/-- Live pointers into the tables are no addresses of the heap. -/
theorem HeapAt.freeIndex_ge {kernel : Kernel} {live : List Held} {base : ℕ}
    (hat : HeapAt kernel live base) {page : ℕ} (hpage : KernelPage page)
    (hout : page < base ∨ base + kernel.heap.maxIndex ≤ page) :
    kernel.heap.maxIndex ≤ freeIndex kernel.heap (UInt32.ofBitVec (pageAt page)) := by
  have hlow := hat.low
  have hhigh := hat.high
  obtain ⟨hpageLow, hpageHigh⟩ := id hpage
  have hbase := hat.heapBase_toNat
  have haddr : (UInt32.ofBitVec (pageAt page)).toNat = page * 4096 := hpage.pageAt_toNat
  have hdifference : (UInt32.ofBitVec (pageAt page) - kernel.heap.heapBase).toNat =
      (2 ^ 32 - base * 4096 + page * 4096) % 2 ^ 32 := by
    rw [UInt32.toNat_sub, haddr, hbase]
  simp only [freeIndex, hdifference, pageSizeBytes]
  split <;> omega

/-! ## `kfree` -/

theorem KfreeInv.erase {state : KfreeState} (hinv : KfreeInv state) (held : Held) :
    KfreeInv { state with held := state.held.erase held } where
  shared := hinv.shared
  placed other hother := hinv.placed other (List.mem_of_mem_erase hother)
  kept other hother := hinv.kept other (List.mem_of_mem_erase hother)
  apart := hinv.apart.sublist List.erase_sublist
  heapOff := hinv.heapOff
  heapOn hon := by
    obtain ⟨hheap, base, hat⟩ := hinv.heapOn hon
    exact ⟨hheap, base, hat.heapBase, hat.low, hat.high, hat.mapped,
      fun other hother => hat.apart other (List.mem_of_mem_erase hother)⟩

/-- With the heap set up, `kfree` of a pointer into the tables does nothing. -/
theorem kfree_on_held {state : KfreeState} (hinv : KfreeInv state)
    (hon : state.kernel.heapOn) {held : Held} (hheld : held ∈ state.held) :
    kfree state.kernel held.addr = some state.kernel := by
  obtain ⟨-, base, hat⟩ := hinv.heapOn hon
  have hplaced := hinv.placed held hheld
  have hlow := hplaced.low
  have hhigh := hplaced.high
  have hpos := hplaced.pos
  have hout := hat.apart held hheld held.page ⟨le_rfl, by omega⟩
  have hindex := hat.freeIndex_ge ⟨hlow, by omega⟩ hout
  rw [kfree, if_pos hon, hplaced.addr, heapFree_of_ge hindex]

/-- Before that, it clears the words of the pages and gives their frames back. -/
theorem kfree_off_held {state : KfreeState} (hinv : KfreeInv state)
    (hoff : ¬ state.kernel.heapOn) {held : Held} (hheld : held ∈ state.held) :
    ∃ next, kfree state.kernel held.addr =
        some { state.kernel with machine := next } ∧
      Cleared state.kernel.machine next held.page held.pages 0 held.word := by
  have hplaced := hinv.placed held hheld
  obtain ⟨next, hfree, hcleared⟩ := kfreePages_spec hinv.shared.addressable
    hplaced.low hplaced.high hplaced.pos hplaced.linked hplaced.aligned
  refine ⟨next, ?_, hcleared⟩
  rw [hplaced.addr]
  simp only [kfree, if_neg hoff, hfree, Option.bind_eq_bind, Option.bind_some]

theorem Placed.pageAddress {m : Machine} {held : Held} (hplaced : Placed m held)
    (k : ℕ) :
    held.addr + BitVec.ofNat 32 (k * 4096) = pageAt (held.page + k) := by
  have hhigh := hplaced.high
  rw [hplaced.addr]
  apply BitVec.eq_of_toNat_eq
  simp only [pageAt, BitVec.toNat_add, BitVec.toNat_shiftLeft, BitVec.toNat_ofNat,
    Nat.shiftLeft_eq]
  omega

/-- The frames that `kmalloc` took are those behind the pages. -/
theorem KfreeInv.frame_word {state : KfreeState} (hinv : KfreeInv state) {held : Held}
    (hheld : held ∈ state.held) {frames : List ℕ} (htaken : held.origin = .taken frames)
    {k : ℕ} (hk : k < held.pages) :
    (frameOf (held.word k)).toNat = frames.getD k 0 ∧ frames.getD k 0 ∈ frames := by
  have hlength := (hinv.placed held hheld).length frames htaken
  have hmem : frames.getD k 0 ∈ frames := by
    rw [List.getD_eq_getElem _ _ (by omega)]
    exact List.getElem_mem _
  have hbound : frames.getD k 0 < 2 ^ 20 := by
    apply (hinv.kept held hheld _ _).bound
    rwa [Held.frames, htaken]
  refine ⟨?_, hmem⟩
  rw [Held.word, htaken, frameOf_toNat, BitVec.toNat_ofNat]
  omega

theorem released_off {state : KfreeState} (hinv : KfreeInv state)
    (hoff : ¬ state.kernel.heapOn) {held : Held} (hheld : held ∈ state.held)
    {next : Machine}
    (hcleared : Cleared state.kernel.machine next held.page held.pages 0 held.word) :
    Released { state.kernel with machine := next } held := by
  have hplaced := hinv.placed held hheld
  have hlow := hplaced.low
  have hhigh := hplaced.high
  constructor
  · intro k hk
    have hpage : KernelPage (held.page + k) := ⟨by omega, by omega⟩
    rw [hplaced.pageAddress k, getPflags_page hcleared.addressable hpage,
      hcleared.entry _ hpage, if_pos (by omega)]
    rfl
  · intro k _
    apply getHeapIndex_of_ge
    change state.kernel.heap.maxIndex ≤ _
    rw [Heap.maxIndex, (hinv.heapOff hoff).1]
    omega
  · intro frame hframe
    unfold Held.frames at hframe
    split at hframe
    · rename_i frames htaken
      obtain ⟨k, hk, hget⟩ := List.getElem_of_mem hframe
      have hlength := hplaced.length frames htaken
      obtain ⟨hword, -⟩ := hinv.frame_word hheld htaken (show k < held.pages by omega)
      rw [List.getD_eq_getElem _ _ hk, hget] at hword
      by_contra hused
      have hkept := (hcleared.used frame).mp (by simpa using hused)
      exact hkept.2 k (by omega) (by omega) hword.symm
    · simp at hframe

theorem not_released_on {state : KfreeState} (hinv : KfreeInv state) {held : Held}
    (hheld : held ∈ state.held) : ¬ Released state.kernel held := by
  intro hreleased
  have hplaced := hinv.placed held hheld
  have hlow := hplaced.low
  have hhigh := hplaced.high
  have hpos := hplaced.pos
  have hpage : KernelPage (held.page + 0) := ⟨by omega, by omega⟩
  have hflags := hreleased.unmapped 0 hpos
  rw [hplaced.pageAddress 0, getPflags_page hinv.shared.addressable hpage] at hflags
  exact not_free_of_linked hplaced.linked hpos (Option.some.inj hflags)

theorem sharedHalf_of_addressable {m : Machine} (haddr : Addressable kernelSlots m)
    (hdirectory : m.frames.used m.directory.toNat = true)
    (htables : ∀ frame, IsTable m frame → m.frames.used frame.toNat = true) :
    SharedHalf {m.directory} m where
  current := rfl
  recursive directory hmem := by
    rw [Set.mem_singleton_iff.mp hmem]
    exact haddr.recursive
  agree directory hmem slot _ := by
    rw [Set.mem_singleton_iff.mp hmem]
    rfl
  present := haddr.present
  distinct := haddr.distinct
  apart directory hmem := by
    rw [Set.mem_singleton_iff.mp hmem]
    rintro ⟨slot, hslot, hne, hframe⟩
    exact haddr.notDirectory slot hslot hne hframe.symm
  usedLive directory hmem := by
    rw [Set.mem_singleton_iff.mp hmem]
    exact hdirectory
  usedTable := htables

theorem Cleared.isTable_iff {m next : Machine} {page sizePgs j : ℕ}
    {word : ℕ → BitVec 32} (hcleared : Cleared m next page sizePgs j word)
    (frame : BitVec 20) : IsTable next frame ↔ IsTable m frame := by
  simp only [IsTable, hcleared.pde]

/-- The frames behind a live pointer, freed before `heap_init`, are foreign to
the others. -/
theorem KfreeInv.foreign {state : KfreeState} (hinv : KfreeInv state)
    (hoff : ¬ state.kernel.heapOn) {held : Held} (hheld : held ∈ state.held)
    (hok : Admissible state (.kfree held.addr)) {k : ℕ} (hk : k < held.pages) :
    frameOf (held.word k) ≠ state.kernel.machine.directory ∧
      ¬ IsTable state.kernel.machine (frameOf (held.word k)) ∧
      ∀ other ∈ state.held.erase held,
        (frameOf (held.word k)).toNat ∉ other.frames := by
  cases horigin : held.origin with
  | taken frames =>
      obtain ⟨hword, hmem⟩ := hinv.frame_word hheld horigin hk
      have hmem' : frames.getD k 0 ∈ held.frames := by
        rwa [Held.frames, horigin]
      have hkept := hinv.kept held hheld _ hmem'
      have hframe : frameOf (held.word k) = BitVec.ofNat 20 (frames.getD k 0) := by
        apply BitVec.eq_of_toNat_eq
        rw [hword, toNat_frame hkept.bound]
      refine ⟨?_, ?_, ?_⟩
      · rw [hframe]
        exact hkept.notDirectory
      · rw [hframe]
        exact hkept.notTable
      · intro other hother
        have hcons := ((List.perm_cons_erase hheld).pairwise_iff
          (fun {left right} => Held.Apart.symm)).mp hinv.apart
        rw [hword]
        exact ((List.pairwise_cons.mp hcons).1 other hother).2 _ hmem'
  | named paddr =>
      have hword : held.word k = paddr + BitVec.ofNat 32 k * 4096 := by
        rw [Held.word, horigin]
      rw [hword]
      obtain ⟨hdirectory, htable, hothers⟩ :=
        hok hoff held hheld rfl paddr horigin k hk
      exact ⟨hdirectory, htable,
        fun other hother => hothers other (List.mem_of_mem_erase hother)⟩

theorem inv_kfree_off {state : KfreeState} (hinv : KfreeInv state)
    (hoff : ¬ state.kernel.heapOn) {held : Held} (hheld : held ∈ state.held)
    (hok : Admissible state (.kfree held.addr)) {next : Machine}
    (hcleared : Cleared state.kernel.machine next held.page held.pages 0 held.word) :
    KfreeInv { state with
      kernel := { state.kernel with machine := next }
      held := state.held.erase held } := by
  have hforeign := fun {k : ℕ} (hk : k < held.pages) => hinv.foreign hoff hheld hok hk
  have hused : ∀ frame, state.kernel.machine.frames.used frame = true →
      (∀ k < held.pages, frame ≠ (frameOf (held.word k)).toNat) →
      next.frames.used frame = true := by
    intro frame hold hother
    exact (hcleared.used frame).mpr ⟨hold, fun k _ hk => hother k hk⟩
  constructor
  · apply sharedHalf_of_addressable hcleared.addressable
    · rw [hcleared.directory]
      apply hused _ (hinv.shared.usedLive _ rfl)
      intro k hk heq
      exact (hforeign hk).1 (BitVec.eq_of_toNat_eq heq.symm)
    · intro frame htable
      rw [hcleared.isTable_iff] at htable
      apply hused _ (hinv.shared.usedTable frame htable)
      intro k hk heq
      exact (hforeign hk).2.1 (BitVec.eq_of_toNat_eq heq ▸ htable)
  · intro other hother
    have hplaced := hinv.placed other (List.mem_of_mem_erase hother)
    have hcons := ((List.perm_cons_erase hheld).pairwise_iff
      (fun {left right} => Held.Apart.symm)).mp hinv.apart
    have hapart := ((List.pairwise_cons.mp hcons).1 other hother).1
    refine ⟨hplaced.addr, hplaced.pos, hplaced.low, hplaced.high, ?_,
      hplaced.aligned, hplaced.length⟩
    intro k hk
    have hlow := hplaced.low
    have hhigh := hplaced.high
    have hout : ¬ (held.page + 0 ≤ other.page + k ∧
        other.page + k < held.page + held.pages) := by
      intro hin
      exact hapart (other.page + k) hin
        ⟨Nat.le_add_right _ _, Nat.add_lt_add_left hk _⟩
    rw [hcleared.entry _ ⟨by omega, by omega⟩, if_neg hout]
    exact hplaced.linked k hk
  · intro other hother frame hframe
    have hkept := hinv.kept other (List.mem_of_mem_erase hother) frame hframe
    refine ⟨hkept.bound, hused frame hkept.used ?_, ?_, ?_⟩
    · intro k hk heq
      exact (hforeign hk).2.2 other hother (heq ▸ hframe)
    · change _ ≠ next.directory
      rw [hcleared.directory]
      exact hkept.notDirectory
    · exact mt (hcleared.isTable_iff _).mp hkept.notTable
  · exact hinv.apart.sublist List.erase_sublist
  · exact hinv.heapOff
  · intro hon
    exact absurd hon hoff

theorem inv_kfree {state next : KfreeState} {addr : BitVec 32} (hinv : KfreeInv state)
    (hok : Admissible state (.kfree addr))
    (hstep : step state (.kfree addr) = some next) : KfreeInv next := by
  simp only [step] at hstep
  cases hfind : state.held.find? (fun held => held.addr = addr) with
  | some held =>
      have hheld := List.mem_of_find?_eq_some hfind
      obtain rfl : held.addr = addr := by simpa using List.find?_some hfind
      rw [hfind] at hstep
      by_cases hon : state.kernel.heapOn
      · simp only [kfree_on_held hinv hon hheld, Option.bind_eq_bind,
          Option.bind_some, Option.some.injEq] at hstep
        subst hstep
        exact hinv.erase held
      · obtain ⟨machine, hfree, hcleared⟩ := kfree_off_held hinv hon hheld
        simp only [hfree, Option.bind_eq_bind, Option.bind_some,
          Option.some.injEq] at hstep
        subst hstep
        exact inv_kfree_off hinv hon hheld hok hcleared
  | none =>
      rw [hfind] at hstep
      cases hblock : state.blocks.find? (fun block => block.addr.toBitVec = addr) with
      | none => simp [hblock] at hstep
      | some block =>
          have hmem := List.mem_of_find?_eq_some hblock
          obtain rfl : block.addr.toBitVec = addr := by
            simpa using List.find?_some hblock
          have hon : state.kernel.heapOn := by
            by_contra hoff
            rw [(hinv.heapOff hoff).2] at hmem
            cases hmem
          simp only [hblock, kfree, if_pos hon, Option.bind_eq_bind,
            Option.bind_some, Option.some.injEq] at hstep
          subst hstep
          exact hinv.reheap hon (heapFree_shape _ _)
            (inv_free (hinv.heapOn hon).1 hmem)

/-- Every admissible call keeps the invariant. -/
theorem inv_step_kfree (state : KfreeState) (call : Call) (next : KfreeState)
    (hinv : KfreeInv state) (hok : Admissible state call)
    (hstep : step state call = some next) : KfreeInv next := by
  cases call with
  | kmalloc sizePgs =>
      by_cases hon : state.kernel.heapOn
      · exact inv_kmalloc_on hinv hon hok hstep
      · exact inv_kmalloc_off hinv hon hok hstep
  | kmallocPagePaddr paddr sizePgs => exact inv_kmallocPagePaddr hinv hok hstep
  | heapInit sizeBytes oldMap => exact inv_heapInit_step hinv hok hstep
  | kfree addr => exact inv_kfree hinv hok hstep

/-! ## Blocks of the heap -/

theorem HeapAt.index_eq {kernel : Kernel} {live : List Held} {base : ℕ}
    (hat : HeapAt kernel live base) {index : ℕ}
    (hindex : index < kernel.heap.maxIndex) :
    heapAddressToIndex kernel.heap (heapIndexToAddress kernel.heap index) = index := by
  have hlow := hat.low
  have hhigh := hat.high
  have hbase := hat.heapBase_toNat
  have hsub := toNat_heapIndexToAddress_sub kernel.heap
    (show index < 2 ^ 20 by omega)
  have hout : ¬ (heapIndexToAddress kernel.heap index ≥ kernel.heap.heapBase +
        UInt32.ofNat (kernel.heap.maxIndex * pageSizeBytes) ∨
      heapIndexToAddress kernel.heap index < kernel.heap.heapBase) := by
    simp only [ge_iff_le, UInt32.le_iff_toNat_le, UInt32.lt_iff_toNat_lt,
      heapIndexToAddress, UInt32.toNat_add, UInt32.toNat_ofNat', hbase,
      pageSizeBytes]
    omega
  rw [heapAddressToIndex, if_neg hout, hsub, pageSizeBytes,
    Nat.mul_div_cancel _ (by decide)]

/-- `kfree` of a block of the heap clears its marks; its pages stay mapped. -/
theorem kfree_block {state : KfreeState} (hinv : KfreeInv state) {block : Block}
    (hblock : block ∈ state.blocks) :
    ∃ next, kfree state.kernel block.addr.toBitVec = some next ∧
      Unmarked next.heap block ∧ ∀ k < block.pages, ∃ flags,
        getPflags next.machine (block.page k).toBitVec = some flags ∧ flags ≠ 0 := by
  have hon : state.kernel.heapOn := by
    by_contra hoff
    rw [(hinv.heapOff hoff).2] at hblock
    cases hblock
  obtain ⟨hheap, base, hat⟩ := hinv.heapOn hon
  obtain ⟨hpos, start, hblockAt, hlinked⟩ := hheap.placed block hblock
  have hshape := heapFree_shape state.kernel.heap block.addr
  have hat' := hat.reshape hshape
  have hmax : (heapFree state.kernel.heap block.addr).maxIndex =
      state.kernel.heap.maxIndex := Heap.maxIndex_eq hshape
  have hend : start + block.pages ≤ state.kernel.heap.maxIndex := hblockAt.2
  have hlow := hat.low
  have hhigh := hat.high
  have hpage : ∀ k, block.page k =
      heapIndexToAddress (heapFree state.kernel.heap block.addr) (start + k) :=
    Block.page_of_at (Block.at_of_shape hshape.symm hblockAt)
  refine ⟨_, if_pos hon, ?_, ?_⟩
  · intro k hk
    change getHeapIndex (heapFree state.kernel.heap block.addr)
      (heapAddressToIndex (heapFree state.kernel.heap block.addr) (block.page k)) = 0
    rw [hpage k, hat'.index_eq (by
      change start + k < (heapFree state.kernel.heap block.addr).maxIndex
      omega), hblockAt.1,
      getHeapIndex_heapFree hheap.bound hpos hlinked, if_pos (by omega)]
  · intro k hk
    have hkernel : KernelPage (base + (start + k)) := ⟨by omega, by omega⟩
    refine ⟨_, ?_, hat.mapped (start + k) (by omega)⟩
    rw [hpage k, hat'.pageAddress (start + k)]
    exact getPflags_page hinv.shared.addressable hkernel

/-- In every state that admissible calls reach, `kfree` releases a live pointer
of `kmalloc` or `kmalloc_page_paddr` into the page tables exactly when the heap
is not set up, and the marks of a live block of the heap always. -/
theorem kfree_releases_iff (kernel : Kernel) (calls : List Call) (final : KfreeState)
    (hbooted : Booted kernel)
    (hcalls : Meets step Admissible ⟨kernel, [], []⟩ calls)
    (hrun : exec step ⟨kernel, [], []⟩ calls = some final) :
    (∀ held ∈ final.held, ∃ next, kfree final.kernel held.addr = some next ∧
      (Released next held ↔ ¬ final.kernel.heapOn)) ∧
    ∀ block ∈ final.blocks, ∃ next,
      kfree final.kernel block.addr.toBitVec = some next ∧
        Unmarked next.heap block ∧ ∀ k < block.pages, ∃ flags,
          getPflags next.machine (block.page k).toBitVec = some flags ∧
            flags ≠ 0 := by
  have hinv := exec_invariant inv_step_kfree (inv_booted hbooted) hcalls hrun
  refine ⟨?_, fun block hblock => kfree_block hinv hblock⟩
  intro held hheld
  by_cases hon : final.kernel.heapOn
  · exact ⟨_, kfree_on_held hinv hon hheld,
      iff_of_false (not_released_on hinv hheld) (not_not.mpr hon)⟩
  · obtain ⟨next, hfree, hcleared⟩ := kfree_off_held hinv hon hheld
    exact ⟨_, hfree, iff_of_true (released_off hinv hon hheld hcleared) hon⟩

/-- Directory and table of the first kernel slot are in frames 1 and 2; nothing
is mapped. -/
def bootKernel : Kernel where
  machine :=
    { mem := fun frame index =>
        if frame = 1 ∧ index = 1023 then 0x1001
        else if frame = 1 ∧ index = 768 then 0x2001 else 0
      cr3 := 0x1000
      frames := ⟨fun byte => if byte = 0 then 0xff else 0, 0⟩ }
  heap := ⟨fun _ => 0, 0, 0, 0⟩

theorem bootKernel_pde {slot : BitVec 10} (hslot : slot ∈ kernelSlots)
    (hne : bootKernel.machine.pde slot ≠ 0) :
    slot = 768 ∧ bootKernel.machine.pde slot = 0x2001 := by
  have hlast : slot ≠ 1023 := by
    rintro rfl
    exact absurd hslot.2 (by decide)
  change (if (1 : BitVec 20) = 1 ∧ slot = 1023 then (0x1001 : BitVec 32)
    else if (1 : BitVec 20) = 1 ∧ slot = 768 then 0x2001 else 0) ≠ 0 at hne
  change _ ∧ (if (1 : BitVec 20) = 1 ∧ slot = 1023 then (0x1001 : BitVec 32)
    else if (1 : BitVec 20) = 1 ∧ slot = 768 then 0x2001 else 0) = 0x2001
  rw [if_neg (fun h => hlast h.2)] at hne ⊢
  by_cases hfirst : slot = 768
  · exact ⟨hfirst, if_pos ⟨rfl, hfirst⟩⟩
  · rw [if_neg (fun h => hfirst h.2)] at hne
    exact absurd rfl hne

theorem bootKernel_addressable : Addressable kernelSlots bootKernel.machine where
  recursive := ⟨by decide, by decide⟩
  present slot hslot hne := by
    rw [(bootKernel_pde hslot hne).2]
    decide
  notDirectory slot hslot hne := by
    rw [(bootKernel_pde hslot hne).2]
    decide
  distinct slot hslot other hother hne hne' _ := by
    rw [(bootKernel_pde hslot hne).1, (bootKernel_pde hother hne').1]

theorem booted_bootKernel : Booted bootKernel where
  shared := by
    apply sharedHalf_of_addressable bootKernel_addressable (by decide)
    rintro frame ⟨slot, hslot, hne, rfl⟩
    rw [(bootKernel_pde hslot hne).2]
    decide
  heapOff := by decide
  noHeap := rfl

/-- One page, before `heap_init`. -/
theorem kfree_releases_page :
    ∃ final, exec step ⟨bootKernel, [], []⟩ [.kmalloc 1] = some final ∧
      ∃ held ∈ final.held, ∃ next, kfree final.kernel held.addr = some next ∧
        Released next held := by
  have hplace : Placeable bootKernel.machine 1 := by
    refine ⟨0xc0000, ⟨le_rfl, by decide, ?_, ?_⟩, ?_⟩
    · intro j hj
      obtain rfl : j = 0 := by omega
      decide
    · intro other hlow hlt
      omega
    · intro k hk mapped hmapped
      obtain rfl : k = 0 := by omega
      obtain rfl : bootKernel.machine = mapped := by
        simpa [mapFresh] using hmapped
      exact .inl (by unfold Tabled; decide)
  have hcalls : Meets step Admissible ⟨bootKernel, [], []⟩ [.kmalloc 1] := by
    apply meets_cons_intro
    · exact ⟨by decide, fun _ => hplace, fun hon => absurd hon (by decide)⟩
    · intro _ _
      trivial
  refine ⟨_, rfl, _, List.mem_cons_self, ?_⟩
  obtain ⟨hheld, -⟩ :=
    kfree_releases_iff bootKernel [.kmalloc 1] _ booted_bootKernel hcalls rfl
  obtain ⟨next, hfree, hreleased⟩ := hheld _ List.mem_cons_self
  exact ⟨next, hfree, hreleased.mpr (by decide +kernel)⟩

/-- A window that was opened after `heap_init` is still mapped when it has been
freed. -/
theorem kfree_leaves_window : Booted bootKernel ∧
    ∃ final, exec step ⟨bootKernel, [], []⟩
        [.heapInit 8192 (fun _ => 0xff), .kmallocPagePaddr 0x5000 1] = some final ∧
      ∃ held ∈ final.held, ∃ next, kfree final.kernel held.addr = some next ∧
        ¬ Released next held := by
  refine ⟨booted_bootKernel, _, rfl, _, List.mem_cons_self, _, rfl, ?_⟩
  intro hreleased
  have hflags := hreleased.unmapped 0 (by decide +kernel)
  revert hflags
  decide +kernel

end KimisOS.Kfree
