import KimisOS.Memory.Kfree

/-!
# Running out of frames in `kmalloc`

Before `heap_init`, `kmalloc` takes one frame after the other and maps it.
When `pm_alloc` has none left it calls `kfree`, while it holds the page lock,
with the index of its first page shifted by 22 instead of 12.  Here the lock is
part of the state, and a thread that takes it a second time has no result.
-/

namespace KimisOS.Exhaustion

open KimisOS.Frames
open KimisOS.Paging
open KimisOS.Kmalloc
open KimisOS.Kfree
open KimisOS.Fork

/-! ## The calls with their lock -/

structure Locked where
  machine : Machine
  pageLock : Bool

/-- `spinlock_acquire(&page_lock)`. -/
def acquire (state : Locked) : Option Locked :=
  if state.pageLock then none else some { state with pageLock := true }

/-- `spinlock_release(&page_lock)`. -/
def release (state : Locked) : Locked := { state with pageLock := false }

/-- `kfree` before `heap_init`. -/
def kfree (state : Locked) (vaddr : BitVec 32) : Option Locked := do
  let flags ← getPflags state.machine vaddr
  if flags = 0 then some state
  else
    let held ← acquire state
    let first ← firstPage held.machine (2 ^ 20 + 1) (vaddr &&& ~~~0xfff)
    let machine ← releasePages held.machine (2 ^ 20 + 1) first
    some (release { held with machine := machine })

/-- The loop of `kmalloc` that maps fresh frames, and whether it ended without
running out of them. -/
def mapPages (state : Locked) (page sizePgs : ℕ) : ℕ → Option (Locked × Bool)
  | 0 => some (state, true)
  | count + 1 => do
      let (mapped, served) ← mapPages state page sizePgs count
      if served = false then some (mapped, false)
      else
        let (frames, physaddr) := pmAlloc mapped.machine.frames
        let taken := { mapped with machine := mapped.machine.setFrames frames }
        if physaddr = 0 then
          let freed ← kfree taken (BitVec.ofNat 32 page <<< 22)
          some (freed, false)
        else
          let linked ← map taken.machine (pageAt (page + count))
            (BitVec.ofNat 32 physaddr) (linkFlags count sizePgs)
          some ({ taken with machine := linked }, true)

/-- `kmalloc` before `heap_init`. -/
def kmalloc (state : Locked) (sizePgs : ℕ) : Option (Locked × BitVec 32) := do
  let held ← acquire state
  match ← searchPages held.machine sizePgs with
  | none => some (release held, 0)
  | some i =>
      let (mapped, served) ← mapPages held i sizePgs sizePgs
      some (release mapped, if served then pageAt i else 0)

/-! ## Atomicity -/

/-- `pm_alloc` has no frame for a page of the block, or none for a page table
that `map` makes for one. -/
def RunsOut (m : Machine) (sizePgs : ℕ) : Prop :=
  ∃ i, searchPages m sizePgs = some (some i) ∧
    ∃ k < sizePgs, ∃ mid, mapFresh m i sizePgs k = some (mid, true) ∧
      ((pmAlloc mid.frames).2 = 0 ∨
        mid.load (pdAddress (slotOf (i + k))) = some 0 ∧
          (pmAlloc (pmAlloc mid.frames).1).2 = 0)

/-- Every page the loop has mapped is unmapped again, and the frame it had
taken for it is free. -/
def Undone (m next : Machine) (page sizePgs : ℕ) : Prop :=
  ∀ k < sizePgs, ∀ mapped, mapFresh m page sizePgs (k + 1) = some (mapped, true) →
    getPflags next (pageAt (page + k)) = some 0 ∧
      next.frames.used (takenFrame m page sizePgs k) = false

/-- `kmalloc` returns 0, the lock is free, and nothing is left of the call. -/
def Atomic (state : Locked) (sizePgs : ℕ) : Prop :=
  ∃ next, kmalloc state sizePgs = some (next, 0) ∧ next.pageLock = false ∧
    ∀ page, searchPages state.machine sizePgs = some (some page) →
      Undone state.machine next.machine page sizePgs

/-- The first run of unmapped pages. -/
structure FirstRun (m : Machine) (sizePgs page : ℕ) : Prop where
  low : 0xc0000 ≤ page
  high : page < 2 ^ 22
  free : pagesFree m page sizePgs = some true
  lowest : ∀ other, 0xc0000 ≤ other → other < page →
    pagesFree m other sizePgs = some false

/-- `pm_alloc` has no frame for the first page, and nothing is mapped at the
address that `kfree` is given. -/
def FirstFails (m : Machine) (sizePgs : ℕ) : Prop :=
  (pmAlloc m.frames).2 = 0 ∧ ∃ page, FirstRun m sizePgs page ∧
    getPflags m (BitVec.ofNat 32 page <<< 22) = some 0

/-! ## The calls without their lock -/

variable {m : Machine} {page sizePgs : ℕ}

theorem kfree_locked (vaddr : BitVec 32) :
    kfree ⟨m, true⟩ vaddr = (getPflags m vaddr).bind fun flags =>
      if flags = 0 then some ⟨m, true⟩ else none := by
  simp only [kfree, acquire, Option.bind_eq_bind, if_true, Option.bind_none]

/-- With the lock held by the caller, the loop is that of `kmallocPages`. -/
theorem mapPages_eq (m : Machine) (page sizePgs count : ℕ) :
    mapPages ⟨m, true⟩ page sizePgs count =
      (mapFresh m page sizePgs count).map fun result =>
        (⟨result.1, true⟩, result.2) := by
  induction count with
  | zero => rfl
  | succ count ih =>
      rw [mapPages, mapFresh, ih]
      cases mapFresh m page sizePgs count with
      | none => rfl
      | some mapped =>
          obtain ⟨mid, served⟩ := mapped
          cases served with
          | false => rfl
          | true =>
              simp only [Option.map_some, Option.bind_eq_bind, Option.bind_some,
                Bool.true_eq_false, if_false, kfree_locked]
              by_cases hnone : (pmAlloc mid.frames).2 = 0
              · simp only [if_pos hnone]
                cases getPflags (mid.setFrames (pmAlloc mid.frames).1)
                  (BitVec.ofNat 32 page <<< 22) with
                | none => rfl
                | some flags =>
                    by_cases hflags : flags = 0
                    · simp only [Option.bind_some, if_pos hflags, Option.map_some]
                    · simp only [Option.bind_some, if_neg hflags, Option.bind_none,
                        Option.map_none]
              · simp only [if_neg hnone]
                cases map (mid.setFrames (pmAlloc mid.frames).1)
                  (pageAt (page + count)) (BitVec.ofNat 32 (pmAlloc mid.frames).2)
                  (linkFlags count sizePgs) with
                | none => rfl
                | some linked => rfl

/-- `kmallocPages` is the same call without the lock. -/
theorem kmalloc_eq (m : Machine) (sizePgs : ℕ) :
    kmalloc ⟨m, false⟩ sizePgs = (kmallocPages m sizePgs).map fun result =>
      (⟨result.1, false⟩, result.2) := by
  simp only [kmalloc, kmallocPages, acquire, Bool.false_eq_true, if_false,
    Option.bind_eq_bind, Option.bind_some]
  cases searchPages m sizePgs with
  | none => rfl
  | some found =>
      cases found with
      | none => rfl
      | some i =>
          simp only [Option.bind_some, mapPages_eq]
          cases mapFresh m i sizePgs sizePgs with
          | none => rfl
          | some mapped => rfl

/-! ## The search -/

theorem findPages_eq_some {rounds i : ℕ}
    (hfound : findPages m sizePgs rounds i = some (some page)) :
    i ≤ page ∧ page < i + rounds ∧ pagesFree m page sizePgs = some true ∧
      ∀ other, i ≤ other → other < page → pagesFree m other sizePgs = some false := by
  induction rounds generalizing i with
  | zero => simp [findPages] at hfound
  | succ rounds ih =>
      simp only [findPages, Option.bind_eq_bind, Option.bind_eq_some_iff] at hfound
      obtain ⟨found, hfree, hrest⟩ := hfound
      cases found with
      | true =>
          obtain rfl : i = page := by simpa using hrest
          exact ⟨le_rfl, by omega, hfree, fun other hlow hhigh => by omega⟩
      | false =>
          rw [if_neg (by decide)] at hrest
          obtain ⟨hlow, hhigh, hpage, hlowest⟩ := ih hrest
          refine ⟨by omega, by omega, hpage, ?_⟩
          intro other hother hlt
          rcases Nat.eq_or_lt_of_le hother with rfl | hlater
          · exact hfree
          · exact hlowest other hlater hlt

theorem FirstRun.findPages (hrun : FirstRun m sizePgs page) {rounds i : ℕ}
    (hlow : 0xc0000 ≤ i) (hi : i ≤ page) (hrounds : page < i + rounds) :
    Kmalloc.findPages m sizePgs rounds i = some (some page) := by
  induction rounds generalizing i with
  | zero => omega
  | succ rounds ih =>
      rw [Kmalloc.findPages]
      by_cases hhere : i = page
      · rw [hhere, hrun.free]
        rfl
      · rw [hrun.lowest i hlow (by omega)]
        exact ih (by omega) (by omega) (by omega)

theorem searchPages_iff (m : Machine) (sizePgs page : ℕ) :
    searchPages m sizePgs = some (some page) ↔ FirstRun m sizePgs page := by
  constructor
  · intro hsearch
    obtain ⟨hlow, hhigh, hfree, hlowest⟩ := findPages_eq_some hsearch
    exact ⟨hlow, by omega, hfree, hlowest⟩
  · intro hrun
    have hhigh := hrun.high
    exact hrun.findPages le_rfl hrun.low (by omega)

/-! ## The loop -/

/-- Where one more round of the loop ends. -/
theorem mapFresh_succ {count : ℕ} {next : Machine} {served : Bool}
    (hmap : mapFresh m page sizePgs (count + 1) = some (next, served)) :
    ∃ mid before, mapFresh m page sizePgs count = some (mid, before) ∧
      (before = false ∧ next = mid ∧ served = false ∨
        before = true ∧ (pmAlloc mid.frames).2 = 0 ∧
          next = mid.setFrames (pmAlloc mid.frames).1 ∧ served = false ∧
          getPflags mid (BitVec.ofNat 32 page <<< 22) = some 0 ∨
        before = true ∧ (pmAlloc mid.frames).2 ≠ 0 ∧ served = true ∧
          map (mid.setFrames (pmAlloc mid.frames).1) (pageAt (page + count))
            (BitVec.ofNat 32 (pmAlloc mid.frames).2) (linkFlags count sizePgs) =
              some next) := by
  simp only [mapFresh, Option.bind_eq_bind, Option.bind_eq_some_iff] at hmap
  obtain ⟨⟨mid, before⟩, hmid, hround⟩ := hmap
  refine ⟨mid, before, hmid, ?_⟩
  cases before with
  | false =>
      obtain ⟨rfl, rfl⟩ := Prod.mk.inj (Option.some.inj hround)
      exact .inl ⟨rfl, rfl, rfl⟩
  | true =>
      simp only [Bool.true_eq_false, if_false] at hround
      split at hround
      · rename_i hnone
        obtain ⟨flags, hflags, hlast⟩ := Option.bind_eq_some_iff.mp hround
        split at hlast
        · rename_i hzero
          obtain ⟨rfl, rfl⟩ := Prod.mk.inj (Option.some.inj hlast)
          rw [hzero] at hflags
          exact .inr (.inl ⟨rfl, hnone, rfl, rfl, hflags⟩)
        · cases hlast
      · rename_i hserved
        obtain ⟨linked, hlink, hlast⟩ := Option.bind_eq_some_iff.mp hround
        obtain ⟨rfl, rfl⟩ := Prod.mk.inj (Option.some.inj hlast)
        exact .inr (.inr ⟨rfl, hserved, rfl, hlink⟩)

/-- A loop that has a result had one after every round. -/
theorem mapFresh_prefix {count : ℕ} {result : Machine × Bool}
    (hmap : mapFresh m page sizePgs count = some result) {k : ℕ} (hk : k ≤ count) :
    ∃ earlier, mapFresh m page sizePgs k = some earlier := by
  induction count generalizing result with
  | zero =>
      obtain rfl : k = 0 := by omega
      exact ⟨_, hmap⟩
  | succ count ih =>
      rcases Nat.eq_or_lt_of_le hk with rfl | hlt
      · exact ⟨_, hmap⟩
      · obtain ⟨mid, before, hmid, -⟩ := mapFresh_succ hmap
        exact ih hmid (by omega)

/-! ## Frames in use -/

theorem store_frames {next : Machine} {vaddr word : BitVec 32}
    (hstore : m.store vaddr word = some next) : next.frames = m.frames := by
  unfold Machine.store at hstore
  split at hstore
  · cases hstore
  · obtain rfl := Option.some.inj hstore
    rfl

theorem zeroTable_frames {slot : BitVec 10} {count : ℕ} {next : Machine}
    (hzero : zeroTable m slot count = some next) : next.frames = m.frames := by
  induction count generalizing next with
  | zero =>
      obtain rfl := Option.some.inj hzero
      rfl
  | succ count ih =>
      simp only [zeroTable, Option.bind_eq_bind, Option.bind_eq_some_iff] at hzero
      obtain ⟨cleared, hcleared, hstore⟩ := hzero
      rw [store_frames hstore, ih hcleared]

/-- Whatever the tables are, `map` frees no frame. -/
theorem map_used {next : Machine} {vaddr paddr flags : BitVec 32}
    (hmap : map m vaddr paddr flags = some next) {frame : ℕ}
    (hused : m.frames.used frame = true) : next.frames.used frame = true := by
  simp only [map, Option.bind_eq_bind, Option.bind_eq_some_iff] at hmap
  obtain ⟨tabled, htabled, widened, hwidened, hstore⟩ := hmap
  have hwide : widened.frames = tabled.frames := by
    simp only [widen, Option.bind_eq_bind, Option.bind_eq_some_iff] at hwidened
    obtain ⟨entry, -, hbranch⟩ := hwidened
    split at hbranch
    · exact store_frames hbranch
    · obtain rfl := Option.some.inj hbranch
      rfl
  rw [store_frames hstore, hwide]
  simp only [newTable, Option.bind_eq_bind, Option.bind_eq_some_iff] at htabled
  obtain ⟨entry, -, hbranch⟩ := htabled
  split at hbranch
  · obtain ⟨named, hnamed, hzero⟩ := Option.bind_eq_some_iff.mp hbranch
    rw [zeroTable_frames hzero, store_frames hnamed]
    exact used_pmAlloc m.frames hused
  · obtain rfl := Option.some.inj hbranch
    exact hused

theorem frame_pmAlloc {frames : FrameMap} (hserved : (pmAlloc frames).2 ≠ 0) :
    (pmAlloc frames).1.used ((pmAlloc frames).2 / 4096) = true := by
  rcases pmAlloc_cases frames with hnone | ⟨taken, haddress, -, -, hafter⟩
  · rw [hnone] at hserved
    exact absurd rfl hserved
  · rw [hafter, haddress, Nat.mul_div_cancel _ (by decide)]
    simp

/-- The loop of `kmalloc` gives no frame back. -/
theorem mapFresh_used {k count : ℕ} {mid next : Machine} {before served : Bool}
    (hmid : mapFresh m page sizePgs k = some (mid, before))
    (hmap : mapFresh m page sizePgs (k + count) = some (next, served)) {frame : ℕ}
    (hused : mid.frames.used frame = true) : next.frames.used frame = true := by
  induction count generalizing next served with
  | zero =>
      rw [Nat.add_zero, hmid] at hmap
      obtain ⟨rfl, -⟩ := Prod.mk.inj (Option.some.inj hmap)
      exact hused
  | succ count ih =>
      obtain ⟨last, ok, hlast, hround⟩ := mapFresh_succ hmap
      have hold := ih hlast
      rcases hround with ⟨-, rfl, -⟩ | ⟨-, -, rfl, -⟩ | ⟨-, -, -, hlink⟩
      · exact hold
      · exact used_pmAlloc last.frames hold
      · exact map_used hlink (used_pmAlloc last.frames hold)

/-- Once it has failed it stays so. -/
theorem mapFresh_failed {k : ℕ} {mid : Machine}
    (hfailed : mapFresh m page sizePgs k = some (mid, false)) (count : ℕ) :
    mapFresh m page sizePgs (k + count) = some (mid, false) := by
  induction count with
  | zero => exact hfailed
  | succ count ih =>
      rw [← Nat.add_assoc, mapFresh, ih]
      rfl

/-! ## When `kmalloc` is atomic -/

theorem kmallocPages_found (hrun : FirstRun m sizePgs page) :
    kmallocPages m sizePgs = (mapFresh m page sizePgs sizePgs).map fun result =>
      (result.1, if result.2 then pageAt page else 0) := by
  simp only [kmallocPages, (searchPages_iff m sizePgs page).mpr hrun,
    Option.bind_eq_bind, Option.bind_some]
  cases mapFresh m page sizePgs sizePgs with
  | none => rfl
  | some mapped => rfl

/-- The first `pm_alloc` fails, and `kfree` has nothing to do. -/
theorem FirstFails.atomic (hfails : FirstFails m sizePgs) (hpos : 0 < sizePgs) :
    Atomic ⟨m, false⟩ sizePgs := by
  obtain ⟨hnone, page, hrun, hflags⟩ := hfails
  have hfirst : mapFresh m page sizePgs 1 =
      some (m.setFrames (pmAlloc m.frames).1, false) := by
    have hsame : getPflags (m.setFrames (pmAlloc m.frames).1)
        (BitVec.ofNat 32 page <<< 22) = some 0 := hflags
    simp only [mapFresh, Option.bind_eq_bind, Option.bind_some, Bool.true_eq_false,
      if_false, if_pos hnone, hsame, if_true]
  have hall : mapFresh m page sizePgs sizePgs =
      some (m.setFrames (pmAlloc m.frames).1, false) := by
    have hmore := mapFresh_failed hfirst (sizePgs - 1)
    rwa [Nat.add_sub_cancel' hpos] at hmore
  refine ⟨⟨m.setFrames (pmAlloc m.frames).1, false⟩, ?_, rfl, ?_⟩
  · rw [kmalloc_eq, kmallocPages_found hrun, hall]
    rfl
  · intro other hsearch k hk mapped hmapped
    rw [(searchPages_iff m sizePgs page).mpr hrun] at hsearch
    obtain rfl : page = other := by simpa using hsearch
    have hfailed := mapFresh_failed hfirst k
    rw [Nat.add_comm, hmapped] at hfailed
    cases hfailed

/-- A frame that was taken for a page stays taken. -/
theorem Atomic.firstFails (hatomic : Atomic ⟨m, false⟩ sizePgs) (hpos : 0 < sizePgs)
    (hrun : FirstRun m sizePgs page) : FirstFails m sizePgs := by
  obtain ⟨next, hcall, -, hundone⟩ := hatomic
  rw [kmalloc_eq, kmallocPages_found hrun, Option.map_map] at hcall
  obtain ⟨⟨final, served⟩, hmap, hresult⟩ := Option.map_eq_some_iff.mp hcall
  obtain ⟨rfl, -⟩ := Prod.mk.inj hresult
  obtain ⟨⟨first, ok⟩, hfirst⟩ := mapFresh_prefix hmap (show 1 ≤ sizePgs from hpos)
  obtain ⟨mid, before, hmid, hround⟩ := mapFresh_succ hfirst
  obtain ⟨rfl, rfl⟩ := Prod.mk.inj (Option.some.inj hmid)
  rcases hround with ⟨hfalse, -⟩ | ⟨-, hnone, -, -, hflags⟩ | ⟨-, hserved, rfl, hlink⟩
  · cases hfalse
  · exact ⟨hnone, page, hrun, hflags⟩
  · -- the frame of the first page is still in use when the call returns
    exfalso
    have hsearch := (searchPages_iff m sizePgs page).mpr hrun
    obtain ⟨-, hfree⟩ := hundone page hsearch 0 hpos first hfirst
    rw [takenFrame_eq hmid] at hfree
    have hend : mapFresh m page sizePgs (1 + (sizePgs - 1)) = some (final, served) := by
      rwa [Nat.add_sub_cancel' hpos]
    have hused := mapFresh_used hfirst hend
      (map_used hlink (frame_pmAlloc hserved))
    rw [hfree] at hused
    cases hused

/-- When `pm_alloc` runs out of frames, `kmalloc` is atomic exactly when it had
none for the first page and nothing is mapped where `kfree` looks. -/
theorem kmalloc_atomic_iff (m : Machine) (sizePgs : ℕ) (hout : RunsOut m sizePgs) :
    Atomic ⟨m, false⟩ sizePgs ↔ FirstFails m sizePgs := by
  obtain ⟨page, hsearch, k, hk, -⟩ := hout
  have hrun := (searchPages_iff m sizePgs page).mp hsearch
  exact ⟨fun hatomic => hatomic.firstFails (by omega) hrun,
    fun hfails => hfails.atomic (by omega)⟩

/-! ## One frame for two pages -/

/-- A directory in frame 1 with one kernel table, in frame 2, that maps
nothing; the last frame of all is free. -/
def lastFrameFree : Machine where
  mem frame index :=
    if frame = 1 ∧ index = 1023 then 0x1001
    else if frame = 1 ∧ index = 768 then 0x2001
    else 0
  cr3 := 0x1000
  frames := ⟨fun i => if i = 0x1ffff then 0x7f else 0xff, 0x1ffff⟩

theorem lastFrameFree_pde {slot : BitVec 10} (hslot : slot ∈ kernelSlots) :
    lastFrameFree.pde slot = if slot = 768 then 0x2001 else 0 := by
  have hlast : slot ≠ 1023 := by
    rintro rfl
    exact absurd hslot.2 (by decide)
  have hdirectory : lastFrameFree.directory = 1 := by decide
  rw [Machine.pde, hdirectory]
  simp only [lastFrameFree, hlast, and_false, if_false, true_and]

theorem lastFrameFree_addressable : Addressable kernelSlots lastFrameFree := by
  have honly : ∀ slot ∈ kernelSlots, lastFrameFree.pde slot ≠ 0 → slot = 768 := by
    intro slot hslot hne
    by_contra hother
    rw [lastFrameFree_pde hslot, if_neg hother] at hne
    exact hne rfl
  constructor
  · exact ⟨by decide, by decide⟩
  · intro slot hslot hne
    obtain rfl := honly slot hslot hne
    decide
  · intro slot hslot hne
    obtain rfl := honly slot hslot hne
    decide
  · intro slot hslot other hother hne hne' _
    rw [honly slot hslot hne, honly other hother hne']

theorem lastFrameFree_free {page : ℕ} (hpage : KernelPage page) :
    Free lastFrameFree page := by
  have hslot := lastFrameFree_pde hpage.slotOf_mem
  by_cases htable : slotOf page = 768
  · rw [if_pos htable] at hslot
    have hframe : frameOf (0x2001 : BitVec 32) = 2 := by decide
    have hempty : lastFrameFree.mem 2 (indexOf page) = 0 := rfl
    rw [Free, pageEntry, Machine.entry, hslot, if_neg (by decide), hframe, hempty]
    rfl
  · rw [if_neg htable] at hslot
    simp [Free, pageEntry, Machine.entry, hslot]

/-- The first page gets the last frame, and the second none. -/
theorem lastFrameFree_runsOut : RunsOut lastFrameFree 2 := by
  have haddr := lastFrameFree_addressable
  have hfit : FirstFit (Free lastFrameFree) 2 0xc0000 := by
    constructor
    · exact le_rfl
    · decide
    · intro j hj
      exact lastFrameFree_free ⟨by omega, by omega⟩
    · intro other hlow hhigh
      omega
  have hserved : (pmAlloc lastFrameFree.frames).2 ≠ 0 ∧
      (pmAlloc (pmAlloc lastFrameFree.frames).1).2 = 0 := by decide +kernel
  have hpage : KernelPage 0xc0000 := ⟨by decide, by decide⟩
  have htabled : Tabled (lastFrameFree.setFrames (pmAlloc lastFrameFree.frames).1)
      0xc0000 := by
    change lastFrameFree.pde (slotOf 0xc0000) ≠ 0
    decide
  have haddr' := (samePages_frames lastFrameFree
    (pmAlloc lastFrameFree.frames).1).addressable haddr
  have hlink := map_page haddr' hpage htabled
    (BitVec.ofNat 32 (pmAlloc lastFrameFree.frames).2) (linkFlags 0 2)
  refine ⟨0xc0000, searchPages_eq haddr hfit, 1, by decide,
    window (lastFrameFree.setFrames (pmAlloc lastFrameFree.frames).1) 0xc0000
      (BitVec.ofNat 32 (pmAlloc lastFrameFree.frames).2 ||| linkFlags 0 2), ?_,
    .inl hserved.2⟩
  simp only [mapFresh, Option.bind_eq_bind, Option.bind_some, Bool.true_eq_false,
    if_false, if_neg hserved.1, Nat.add_zero, hlink]

theorem kmalloc_atomic_one_frame :
    Atomic ⟨lastFrameFree, false⟩ 2 ↔ FirstFails lastFrameFree 2 :=
  kmalloc_atomic_iff lastFrameFree 2 lastFrameFree_runsOut

theorem kmalloc_keeps_page :
    RunsOut lastFrameFree 2 ∧ ¬ Atomic ⟨lastFrameFree, false⟩ 2 := by
  refine ⟨lastFrameFree_runsOut, ?_⟩
  intro hatomic
  obtain ⟨page, hsearch, -⟩ := lastFrameFree_runsOut
  obtain ⟨hnone, -⟩ := hatomic.firstFails (by decide)
    ((searchPages_iff lastFrameFree 2 page).mp hsearch)
  exact absurd hnone (by decide +kernel)

end KimisOS.Exhaustion
