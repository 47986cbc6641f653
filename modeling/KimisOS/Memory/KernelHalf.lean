import KimisOS.Memory.Fork

/-!
# Runs that keep the kernel half shared

The windows of `fork` are the only pages it maps in the kernel half.  While
their tables are there, the child's directory gets the half of the parent, and
it stays shared until `map` makes a table in one directory of several.
-/

namespace KimisOS.Fork

open KimisOS.Run
open KimisOS.Frames
open KimisOS.Paging
open KimisOS.Kmalloc
open KimisOS.Scheduler
open KimisOS.Kill

variable {live : Set (BitVec 20)} {m : Machine}

/-! ## The windows of `fork` -/

/-- The pages that `fork` finds: one for the new directory and two for the
stack, all with a table. -/
structure Fits (m : Machine) (home pair : ℕ) : Prop where
  homeFit : FirstFit (Free m) 1 home
  pairFit : FirstFit (fun page => Free m page ∧ home ≠ page) 2 pair
  homeTabled : Tabled m home
  pairTabled : Tabled m pair
  lastTabled : Tabled m (pair + 1)

variable {home pair : ℕ}

theorem Fits.kernelPage_home (hfits : Fits m home pair) : KernelPage home := by
  have hhigh := hfits.homeFit.high
  exact ⟨hfits.homeFit.low, by omega⟩

theorem Fits.kernelPage_pair (hfits : Fits m home pair) :
    KernelPage pair ∧ KernelPage (pair + 1) := by
  have hlow := hfits.pairFit.low
  have hhigh := hfits.pairFit.high
  exact ⟨⟨hlow, by omega⟩, ⟨by omega, by omega⟩⟩

/-- The single page comes first. -/
theorem Fits.home_lt (hfits : Fits m home pair) : home < pair := by
  obtain ⟨hfree, hne⟩ := hfits.pairFit.run 0 (by decide)
  by_contra hle
  rcases Nat.lt_or_eq_of_le (Nat.le_of_not_lt hle) with hlt | heq
  · obtain ⟨j, hj, hnot⟩ := hfits.homeFit.lowest pair hfits.pairFit.low hlt
    obtain rfl : j = 0 := by omega
    exact hnot hfree
  · exact hne heq.symm

/-- Up to the stack pages every table is there: a slot without one would have
had room for them. -/
theorem Fits.tabled (hfits : Fits m home pair) {page : ℕ} (hlow : 0xc0000 ≤ page)
    (hpage : page ≤ pair + 1) : Tabled m page := by
  have hhigh := hfits.pairFit.high
  have hslot : ∀ other, KernelPage other → other / 1024 = page / 1024 →
      slotOf other = slotOf page := by
    intro other hother hsame
    apply BitVec.eq_of_toNat_eq
    rw [hother.slotOf_toNat, KernelPage.slotOf_toNat ⟨hlow, by omega⟩, hsame]
  by_contra huntabled
  have hfree : ∀ j < 2, Free m (page / 1024 * 1024 + j) ∧
      home ≠ page / 1024 * 1024 + j := by
    intro j hj
    have hsame := hslot (page / 1024 * 1024 + j) ⟨by omega, by omega⟩ (by omega)
    have hnot : ¬ Tabled m (page / 1024 * 1024 + j) := by
      rw [Tabled, hsame]
      exact huntabled
    refine ⟨free_of_untabled hnot, ?_⟩
    intro heq
    exact hnot (heq ▸ hfits.homeTabled)
  have hbase : pair ≤ page / 1024 * 1024 := by
    by_contra hlt
    obtain ⟨j, hj, hnot⟩ :=
      hfits.pairFit.lowest (page / 1024 * 1024) (by omega) (by omega)
    exact hnot (hfree j hj)
  rcases (show page = pair ∨ page = pair + 1 by omega) with rfl | rfl
  · exact huntabled hfits.pairTabled
  · exact huntabled hfits.lastTabled

theorem exists_firstFit_one {free : ℕ → Prop} {bound : ℕ}
    (hbound : KernelPage bound) (hfree : free bound) :
    ∃ page ≤ bound, FirstFit free 1 page := by
  have hrun : ∀ j < 1, free (bound + j) := by
    intro j hj
    obtain rfl : j = 0 := by omega
    exact hfree
  obtain ⟨page, hfit⟩ := exists_firstFit hbound.1 hbound.2 hrun
  exact ⟨page, hfit.le_of_free hbound hfree, hfit⟩

/-- The two windows of `mapdup_full` lie below the stack pages. -/
theorem Fits.hasWindows (hfits : Fits m home pair) (word : BitVec 32) :
    HasWindows m [(home, word)] := by
  obtain ⟨hpair, hlast⟩ := hfits.kernelPage_pair
  have huntaken : ∀ j < 2, Untaken m [(home, word)] (pair + j) := by
    intro j hj
    obtain ⟨hfree, hne⟩ := hfits.pairFit.run j hj
    exact ⟨hfree, by simpa using hne⟩
  obtain ⟨page, hle, hfit⟩ := exists_firstFit_one hpair (huntaken 0 (by decide))
  refine ⟨page, hfit, hfits.tabled hfit.low (by omega), ?_⟩
  intro inner
  have hcons : ∀ other, Untaken m [(home, word)] other → page ≠ other →
      Untaken m [(page, inner), (home, word)] other := by
    intro other hother hne
    exact ⟨hother.1, List.forall_mem_cons.mpr ⟨hne, hother.2⟩⟩
  have hnext : ∃ other ≤ pair + 1, KernelPage other ∧
      Untaken m [(page, inner), (home, word)] other := by
    by_cases hsame : page = pair
    · exact ⟨pair + 1, le_rfl, hlast, hcons _ (huntaken 1 (by decide)) (by omega)⟩
    · exact ⟨pair, by omega, hpair, hcons _ (huntaken 0 (by decide)) hsame⟩
  obtain ⟨other, hbound, hkernel, hfree⟩ := hnext
  obtain ⟨second, hsecond, hfit'⟩ := exists_firstFit_one hkernel hfree
  exact ⟨second, hfit', hfits.tabled hfit'.low (by omega)⟩

/-! ## The new directory -/

/-- The directory behind a window joins the others. -/
theorem Holding.insert {start : Machine} {held : List (ℕ × BitVec 32)}
    (hholding : Holding live start held m) {window : ℕ × BitVec 32}
    (hheld : window ∈ held) (hhalf : HasHalf start m (frameOf window.2))
    (hlast : m.mem (frameOf window.2) 1023 = window.2 &&& 0xfffff000 ||| ptPresent) :
    SharedHalf (insert (frameOf window.2) live) m := by
  have hshared := hholding.shared
  constructor
  · exact .inr hshared.current
  · rintro directory (rfl | hmem)
    · rw [hlast, frameOf_or_flags _ (by decide), frameOf_address, present_or]
      exact ⟨Bool.or_eq_true_iff.mpr (.inr (by decide)), rfl⟩
    · exact hshared.recursive directory hmem
  · rintro directory (rfl | hmem) slot hslot
    · rw [hhalf slot hslot, hholding.pde]
    · exact hshared.agree directory hmem slot hslot
  · exact hshared.present
  · exact hshared.distinct
  · rintro directory (rfl | hmem)
    · rw [hholding.isTable_iff]
      exact (hholding.apart window hheld).2
    · exact hshared.apart directory hmem
  · rintro directory (rfl | hmem)
    · exact hholding.used window hheld
    · exact hshared.usedLive directory hmem
  · exact hshared.usedTable

theorem Holding.refl (hshared : SharedHalf live m) : Holding live m [] m where
  shared := hshared
  cr3 := rfl
  live_eq _ _ := rfl
  free page _ := by simp
  page _ hnot := absurd hnot (List.not_mem_nil)
  entry _ hnot := absurd hnot (List.not_mem_nil)
  present _ hnot := absurd hnot (List.not_mem_nil)
  apart _ hnot := absurd hnot (List.not_mem_nil)
  used _ hnot := absurd hnot (List.not_mem_nil)

/-! ## The stack pages -/

/-- `unmap` of a kernel page. -/
theorem SharedHalf.unmap (hshared : SharedHalf live m) {page : ℕ}
    (hpage : KernelPage page) (htabled : Tabled m page) :
    Paging.unmap m (pageAt page) = some (Kmalloc.window m page 0) ∧
      SharedHalf live (Kmalloc.window m page 0) ∧
      Grows m (Kmalloc.window m page 0) := by
  refine ⟨unmap_page hshared.addressable hpage htabled,
    hshared.window hpage htabled 0, rfl, ?_⟩
  intro slot _ hne
  rwa [window_pde hshared.addressable hpage htabled 0]

theorem store_grows {vaddr word : BitVec 32} (hindex : (wordIndex vaddr).toNat < 768)
    {next : Machine} (hstore : m.store vaddr word = some next) : Grows m next := by
  unfold Machine.store at hstore
  split at hstore
  · cases hstore
  · obtain rfl := Option.some.inj hstore
    refine ⟨rfl, ?_⟩
    intro slot hslot hne
    have hlow := hslot.1
    rw [Machine.pde, setWord_mem, if_neg]
    · exact hne
    · rintro ⟨-, rfl⟩
      omega

/-- The registers lie in the first words of a page, whatever frame it is. -/
theorem SharedHalf.storeRegisters (hshared : SharedHalf live m) {page : ℕ}
    (hpage : KernelPage page) {regs : Registers} {count : ℕ}
    (hcount : count ≤ registerWords) {next : Machine}
    (hstore : Fork.storeRegisters m (pageAt page) regs count = some next) :
    SharedHalf live next ∧ Grows m next := by
  induction count generalizing next with
  | zero =>
      obtain rfl := Option.some.inj hstore
      exact ⟨hshared, .refl m⟩
  | succ count ih =>
      have hbound : count < 19 := hcount
      simp only [Fork.storeRegisters, Option.bind_eq_bind, Option.bind_eq_some_iff]
        at hstore
      obtain ⟨mid, hmid, hround⟩ := hstore
      obtain ⟨hmidShared, hmidGrows⟩ := ih (by omega) hmid
      have hindex : (wordIndex (wordAt (pageAt page) count)).toNat < 768 := by
        rw [(hpage.walk_wordAt (by omega)).2.2, BitVec.toNat_ofNat]
        omega
      exact ⟨hmidShared.store hindex hround, hmidGrows.trans (store_grows hindex hround)⟩

theorem pageAt_pred {page : ℕ} (hlow : 0xc0000 < page) (hhigh : page < 0xffc00) :
    pageAt page - 0x1000 = pageAt (page - 1) := by
  have hpage : KernelPage page := ⟨by omega, hhigh⟩
  have hpred : KernelPage (page - 1) := ⟨by omega, by omega⟩
  apply BitVec.eq_of_toNat_eq
  rw [BitVec.toNat_sub, hpage.pageAt_toNat, hpred.pageAt_toNat]
  have hvalue : (0x1000 : BitVec 32).toNat = 4096 := by decide
  rw [hvalue]
  omega

/-- The pages of the stack and of the directory, as the rest of `fork` needs
them. -/
structure StackFits (m : Machine) (home pair : ℕ) : Prop where
  fit : FirstFit (Free m) 2 pair
  low : 0xc0000 < pair
  homePage : KernelPage home
  tabled : ∀ page, 0xc0000 ≤ page → page ≤ pair + 1 → Tabled m page
  homeBelow : home ≤ pair + 1

theorem SharedHalf.placeRegisters (hshared : SharedHalf live m)
    (hfits : StackFits m home pair) {regs : Registers} {next : Machine}
    (hplace : Fork.placeRegisters m (pageAt home) regs = some next) :
    SharedHalf live next ∧ Grows m next ∧ Free next pair := by
  have hlow := hfits.low
  have hhigh := hfits.fit.high
  have hpair : KernelPage pair := ⟨by omega, by omega⟩
  have hpred : KernelPage (pair - 1) := ⟨by omega, by omega⟩
  have htabled : ∀ {grown : Machine}, Grows m grown → ∀ {page : ℕ},
      KernelPage page → page ≤ pair + 1 → Tabled grown page := by
    intro grown hgrown page hpage hle
    exact hgrown.tables _ hpage.slotOf_mem (hfits.tabled page hpage.1 hle)
  simp only [Fork.placeRegisters, Option.bind_eq_bind, Option.bind_eq_some_iff]
    at hplace
  obtain ⟨paddr, -, ⟨mapped, stack⟩, hmap, stored, hstored, first, hfirst, second,
    hsecond, hlast⟩ := hplace
  have hroom : Room live m pair 2 2 :=
    .inl fun j hj => hfits.tabled (pair + j) (by omega) (by omega)
  obtain ⟨mapped', hmapped, hmapShared, hmapGrows⟩ :=
    hshared.kmallocPagePaddr hfits.fit hroom (paddr - 4096)
  rw [hmapped] at hmap
  obtain ⟨rfl, rfl⟩ := Prod.mk.inj (Option.some.inj hmap)
  obtain ⟨hstoreShared, hstoreGrows⟩ :=
    hmapShared.storeRegisters hpair (le_refl registerWords) hstored
  have hgrows := hmapGrows.trans hstoreGrows
  obtain ⟨hfirst', hfirstShared, hfirstGrows⟩ :=
    hstoreShared.unmap hfits.homePage
      (htabled hgrows hfits.homePage hfits.homeBelow)
  obtain rfl := Option.some.inj (hfirst'.symm.trans hfirst)
  replace hgrows := hgrows.trans hfirstGrows
  have hpairTabled := htabled hgrows hpair (by omega)
  obtain ⟨hsecond', hsecondShared, hsecondGrows⟩ :=
    hfirstShared.unmap hpair hpairTabled
  obtain rfl := Option.some.inj (hsecond'.symm.trans hsecond)
  replace hgrows := hgrows.trans hsecondGrows
  have hpredTabled := htabled hgrows hpred (by omega)
  obtain ⟨hlast', hlastShared, hlastGrows⟩ := hsecondShared.unmap hpred hpredTabled
  rw [pageAt_pred hlow (by omega)] at hlast
  obtain rfl := Option.some.inj (hlast'.symm.trans hlast)
  refine ⟨hlastShared, hgrows.trans hlastGrows, ?_⟩
  rw [Free, window_entry hsecondShared.addressable hpred hpredTabled 0 hpair,
    if_neg (by omega), window_entry hfirstShared.addressable hpair hpairTabled 0 hpair,
    if_pos rfl]
  decide

/-! ## The child's directory -/

/-- `fork` makes a directory that shares the kernel half, and leaves a free page
below which every table is there. -/
theorem SharedHalf.forkMemory (hshared : SharedHalf live m)
    (hserved : (pmAlloc m.frames).2 ≠ 0) (hfits : Fits m home pair)
    {regs : Registers} {next : Machine} {newPd : BitVec 32}
    (hfork : Fork.forkMemory m regs = some (next, newPd)) :
    newPd = BitVec.ofNat 32 (pmAlloc m.frames).2 ∧
      SharedHalf (insert (frameOf newPd) live) next ∧ Grows m next ∧
      Free next pair := by
  have hstart : Holding live (m.setFrames (pmAlloc m.frames).1) []
      (m.setFrames (pmAlloc m.frames).1) := .refl hshared.takeFrame
  have hhome : FirstFit (fun page => Free (m.setFrames (pmAlloc m.frames).1) page ∧
      ∀ window ∈ ([] : List (ℕ × BitVec 32)), window.1 ≠ page) 1 home :=
    hfits.homeFit.congr fun page _ => and_iff_left (by simp)
  have hframe := hshared.fresh hserved
  obtain ⟨mapped, hmapped, hheld, -⟩ := hstart.push hhome hfits.homeTabled hframe
    (pmAlloc_fresh hserved).2
  simp only [Fork.forkMemory, hmapped, Option.bind_eq_bind, Option.bind_some,
    Option.bind_eq_some_iff] at hfork
  obtain ⟨copied, hcopied, placed, hplaced, hresult⟩ := hfork
  obtain ⟨rfl, rfl⟩ := Prod.mk.inj (Option.some.inj hresult)
  have hfits' : Fits (m.setFrames (pmAlloc m.frames).1) home pair :=
    ⟨hfits.homeFit, hfits.pairFit, hfits.homeTabled, hfits.pairTabled,
      hfits.lastTabled⟩
  obtain ⟨hcopy, hhalf, hnamed⟩ := hheld.mapdupFull (hfits'.hasWindows _)
    List.mem_cons_self hcopied
  have hjoined := hcopy.insert List.mem_cons_self hhalf hnamed
  have hlower := hfits.home_lt
  have hstack : StackFits copied home pair := by
    constructor
    · refine hfits'.pairFit.congr ?_
      intro page hpage
      rw [hcopy.free page hpage]
      simp
    · have hlow := hfits.homeFit.low
      omega
    · exact hfits.kernelPage_home
    · intro page hlow hle
      rw [Tabled, hcopy.pde]
      exact hfits'.tabled hlow hle
    · omega
  obtain ⟨hplacedShared, hgrows, hfree⟩ := hjoined.placeRegisters hstack hplaced
  rw [frameOf_linked] at hplacedShared
  refine ⟨rfl, hplacedShared, ?_, hfree⟩
  constructor
  · exact hgrows.directory.trans hcopy.cr3
  · intro slot hslot hne
    apply hgrows.tables slot hslot
    rw [hcopy.pde]
    exact hne

/-! ## Steps of the system -/

/-- The directories of the processes that are present. -/
def liveDirectories (system : System) : Set (BitVec 20) :=
  {directory | ∃ pid, (system.sched.processes pid).present = true ∧
    directory = frameOf (system.pageDir pid)}

/-- The invariant: the live directories share the kernel half, and only present
processes run or wait in the queue. -/
structure Shared (system : System) : Prop where
  half : SharedHalf (liveDirectories system) system.kernel.machine
  current : (system.sched.processes system.sched.currentPid).present = true
  queue : 0 < system.sched.queueLength
  queued : ∀ i < system.sched.queueLength,
    (system.sched.processes (system.sched.processQueue i)).present = true

/-- A call on kernel addresses that makes no kernel table in one of several
directories.  `fork` makes none at all: its child is another directory. -/
def MakesNoTable (system : System) : Event → Prop
  | .map vaddr _ _ => pdIndex vaddr ∈ kernelSlots ∧
      (system.kernel.machine.pde (pdIndex vaddr) ≠ 0 ∨
        Alone (liveDirectories system) system.kernel.machine ∧
          (pmAlloc system.kernel.machine.frames).2 ≠ 0)
  | .kmalloc sizePgs => system.kernel.heapOn ∨
      ∃ page, FirstFit (Free system.kernel.machine) sizePgs.toNat page ∧
        Room (liveDirectories system) system.kernel.machine page sizePgs.toNat
          (2 * sizePgs.toNat)
  | .kmallocPagePaddr _ sizePgs =>
      ∃ page, FirstFit (Free system.kernel.machine) sizePgs page ∧
        Room (liveDirectories system) system.kernel.machine page sizePgs sizePgs
  | .fork _ => (pmAlloc system.kernel.machine.frames).2 ≠ 0 ∧
      ∃ home pair, Fits system.kernel.machine home pair
  | .schedule _ => True

theorem Shared.setMachine {system : System} (hshared : Shared system)
    {kernel : Kernel}
    (hhalf : SharedHalf (liveDirectories system) kernel.machine) :
    Shared { system with kernel := kernel } :=
  ⟨hhalf, hshared.current, hshared.queue, hshared.queued⟩

/-- `kmalloc` from a shared half. -/
theorem SharedHalf.kmalloc {kernel next : Kernel} {sizePgs : UInt32}
    {addr : BitVec 32} (hshared : SharedHalf live kernel.machine)
    (hroom : kernel.heapOn ∨
      ∃ page, FirstFit (Free kernel.machine) sizePgs.toNat page ∧
        Room live kernel.machine page sizePgs.toNat (2 * sizePgs.toNat))
    (hcall : Kmalloc.kmalloc kernel sizePgs = some (next, addr)) :
    SharedHalf live next.machine := by
  unfold Kmalloc.kmalloc at hcall
  split at hcall
  · obtain ⟨⟨heap, block⟩, -, hresult⟩ := Option.bind_eq_some_iff.mp hcall
    obtain ⟨rfl, -⟩ := Prod.mk.inj (Option.some.inj hresult)
    exact hshared
  · rename_i hoff
    obtain ⟨page, hfit, hroom⟩ := hroom.resolve_left hoff
    obtain ⟨⟨machine, block⟩, hpages, hresult⟩ := Option.bind_eq_some_iff.mp hcall
    obtain ⟨rfl, -⟩ := Prod.mk.inj (Option.some.inj hresult)
    exact (hshared.kmallocPages hfit hroom hpages).1

/-- What `spawn_new_process` does to the table and to the queue. -/
theorem spawnNewProcess_spec {sched spawned : SchedState} {esp pageDir retpid : ℕ}
    (hspawn : spawnNewProcess sched esp pageDir = some (spawned, some retpid)) :
    (sched.processes retpid).present = false ∧
      (∀ pid, pid ≠ retpid → spawned.processes pid = sched.processes pid) ∧
      spawned.currentPid = sched.currentPid ∧
      spawned.queueLength = sched.queueLength + 1 ∧
      (∀ i < sched.queueLength, spawned.processQueue i = sched.processQueue i) ∧
      spawned.processQueue sched.queueLength = retpid := by
  unfold spawnNewProcess at hspawn
  split at hspawn
  · cases hspawn
  · rename_i pid hslot
    simp only [addProcessQueue] at hspawn
    split at hspawn
    · cases hspawn
    · rename_i queued hqueued
      obtain ⟨rfl, hpid⟩ := Prod.mk.inj (Option.some.inj hspawn)
      obtain rfl := Option.some.inj hpid
      split at hqueued
      · obtain rfl := Option.some.inj hqueued
        refine ⟨(findSlot_spec hslot).2, ?_, rfl, rfl, ?_, ?_⟩
        · intro other hne
          exact Function.update_of_ne hne _ _
        · intro i hi
          exact Function.update_of_ne hi.ne _ _
        · exact Function.update_self _ _ _
      · cases hqueued

/-- The page for the file descriptors lies below the stack pages. -/
theorem SharedHalf.kmalloc_one {kernel next : Kernel} {machine : Machine}
    {addr : BitVec 32} (hshared : SharedHalf live machine)
    (hfits : Fits m home pair) (hgrows : Grows m machine) (hfree : Free machine pair)
    (hcall : Kmalloc.kmalloc { kernel with machine := machine } 1 =
      some (next, addr)) : SharedHalf live next.machine := by
  obtain ⟨page, hle, hfit⟩ := exists_firstFit_one hfits.kernelPage_pair.1 hfree
  have hpage := hfit.kernelPage
  have htabled : ∀ j < (1 : UInt32).toNat, Tabled machine (page + j) := by
    intro j hj
    obtain rfl : j = 0 := Nat.lt_one_iff.mp hj
    exact hgrows.tables _ hpage.slotOf_mem (hfits.tabled hfit.low (by omega))
  exact SharedHalf.kmalloc hshared (.inr ⟨page, hfit, .inl htabled⟩) hcall

/-- A process with a directory of its own is added to the table and to the
queue. -/
theorem Shared.addProcess {system : System} (hshared : Shared system)
    {kernel : Kernel} {sched : SchedState} {retpid : ℕ} {newPd : BitVec 32}
    (habsent : (system.sched.processes retpid).present = false)
    (hothers : ∀ pid, pid ≠ retpid →
      sched.processes pid = system.sched.processes pid)
    (hpresent : (sched.processes retpid).present = true)
    (hpageDir : (sched.processes retpid).pageDir = newPd.toNat)
    (hcurrent : sched.currentPid = system.sched.currentPid)
    (hlength : sched.queueLength = system.sched.queueLength + 1)
    (hqueue : ∀ i < system.sched.queueLength,
      sched.processQueue i = system.sched.processQueue i)
    (hlast : sched.processQueue system.sched.queueLength = retpid)
    (hhalf : SharedHalf (insert (frameOf newPd) (liveDirectories system))
      kernel.machine) :
    Shared { kernel := kernel, sched := sched } := by
  have hold : ∀ pid, (system.sched.processes pid).present = true →
      sched.processes pid = system.sched.processes pid := by
    intro pid hpid
    apply hothers
    rintro rfl
    rw [habsent] at hpid
    cases hpid
  have hlive : liveDirectories { kernel := kernel, sched := sched } =
      insert (frameOf newPd) (liveDirectories system) := by
    ext directory
    constructor
    · rintro ⟨pid, hpid, hdirectory⟩
      rw [System.pageDir] at hdirectory
      by_cases hnew : pid = retpid
      · subst hnew
        rw [hpageDir, BitVec.ofNat_toNat, BitVec.setWidth_eq] at hdirectory
        exact .inl hdirectory
      · rw [hothers pid hnew] at hpid hdirectory
        exact .inr ⟨pid, hpid, hdirectory⟩
    · rintro (hdirectory | ⟨pid, hpid, hdirectory⟩)
      · refine ⟨retpid, hpresent, ?_⟩
        rw [System.pageDir, hpageDir, BitVec.ofNat_toNat, BitVec.setWidth_eq]
        exact hdirectory
      · refine ⟨pid, ?_, ?_⟩
        · rw [hold pid hpid]
          exact hpid
        · rw [System.pageDir, hold pid hpid]
          exact hdirectory
  constructor
  · rw [hlive]
    exact hhalf
  · rw [hcurrent, hold _ hshared.current]
    exact hshared.current
  · rw [hlength]
    exact Nat.succ_pos _
  · intro i hi
    rw [hlength] at hi
    rcases Nat.lt_succ_iff_lt_or_eq.mp hi with hlt | rfl
    · have hqueued := hshared.queued i hlt
      rw [hqueue i hlt, hold _ hqueued]
      exact hqueued
    · rw [hlast]
      exact hpresent

theorem Shared.fork {system next : System} (hshared : Shared system)
    {regs : Registers}
    (hserved : (pmAlloc system.kernel.machine.frames).2 ≠ 0)
    (hfits : Fits system.kernel.machine home pair)
    (hfork : Fork.fork system regs = some next) : Shared next := by
  simp only [Fork.fork, Option.bind_eq_bind, Option.bind_eq_some_iff] at hfork
  obtain ⟨⟨machine, newPd⟩, hmemory, ⟨spawned, pid⟩, hspawn, hrest⟩ := hfork
  obtain ⟨-, hhalf, hgrows, hfree⟩ := hshared.half.forkMemory hserved hfits hmemory
  cases pid with
  | none => cases hrest
  | some retpid =>
      obtain ⟨⟨kernel, block⟩, hkmalloc, hresult⟩ := Option.bind_eq_some_iff.mp hrest
      obtain rfl := Option.some.inj hresult
      obtain ⟨habsent, hothers, hcurrent, hlength, hqueue, hlast⟩ :=
        spawnNewProcess_spec hspawn
      have hkernel := hhalf.kmalloc_one hfits hgrows hfree hkmalloc
      have hne : system.sched.currentPid ≠ retpid := by
        intro heq
        rw [← heq, hshared.current] at habsent
        cases habsent
      refine hshared.addProcess habsent ?_ ?_ ?_ hcurrent hlength hqueue hlast hkernel
      · intro other hother
        exact (Function.update_of_ne hother _ _).trans (hothers other hother)
      · simp only [SchedState.setProcess, Function.update_self, hcurrent,
          hothers _ hne]
        exact hshared.current
      · simp only [SchedState.setProcess, Function.update_self]

/-- A switch to another live directory. -/
theorem SharedHalf.switch (hshared : SharedHalf live m) {cr3 : BitVec 32}
    (hlive : frameOf cr3 ∈ live) : SharedHalf live { m with cr3 := cr3 } := by
  have hpde : ∀ slot ∈ kernelSlots,
      ({ m with cr3 := cr3 } : Machine).pde slot = m.pde slot := by
    intro slot hslot
    exact hshared.agree _ hlive slot hslot
  have htable : ∀ frame, IsTable { m with cr3 := cr3 } frame → IsTable m frame := by
    rintro frame ⟨slot, hslot, hne, hframe⟩
    rw [hpde slot hslot] at hne hframe
    exact ⟨slot, hslot, hne, hframe⟩
  constructor
  · exact hlive
  · exact hshared.recursive
  · intro directory hmem slot hslot
    rw [hpde slot hslot]
    exact hshared.agree directory hmem slot hslot
  · intro slot hslot
    rw [hpde slot hslot]
    exact hshared.present slot hslot
  · intro slot hslot other hother
    rw [hpde slot hslot, hpde other hother]
    exact hshared.distinct slot hslot other hother
  · intro directory hmem hnew
    exact hshared.apart directory hmem (htable directory hnew)
  · exact hshared.usedLive
  · intro frame hnew
    exact hshared.usedTable frame (htable frame hnew)

/-- `schedule` changes of a process only its saved registers. -/
theorem setProcess_esp (sched : SchedState) (esp pid : ℕ) :
    ((sched.setProcess sched.currentPid
        { sched.processes sched.currentPid with esp := esp }).processes pid).present =
          (sched.processes pid).present ∧
      ((sched.setProcess sched.currentPid
        { sched.processes sched.currentPid with esp := esp }).processes pid).pageDir =
          (sched.processes pid).pageDir := by
  simp only [SchedState.setProcess]
  by_cases hpid : pid = sched.currentPid
  · subst hpid
    simp only [Function.update_self, and_self]
  · simp only [Function.update_of_ne hpid, and_self]

theorem Shared.schedule {system next : System} (hshared : Shared system) {esp : ℕ}
    (hschedule : Fork.schedule system esp = some next) : Shared next := by
  have hqueue := hshared.queue
  simp only [Fork.schedule, Option.bind_eq_bind, Option.bind_eq_some_iff] at hschedule
  obtain ⟨sched, hpicked, hresult⟩ := hschedule
  obtain rfl := Option.some.inj hresult
  rw [Scheduler.schedule, addIdle, if_neg hqueue.ne'] at hpicked
  have hkeeps : ∀ pid, (sched.processes pid).present =
      (system.sched.processes pid).present ∧
        (sched.processes pid).pageDir = (system.sched.processes pid).pageDir := by
    intro pid
    obtain rfl := Option.some.inj hpicked
    exact setProcess_esp system.sched esp pid
  have hpid : (system.sched.processes sched.currentPid).present = true := by
    obtain rfl := Option.some.inj hpicked
    exact hshared.queued _ (Nat.mod_lt _ hqueue)
  obtain ⟨hlength, hentries⟩ : sched.queueLength = system.sched.queueLength ∧
      sched.processQueue = system.sched.processQueue := by
    obtain rfl := Option.some.inj hpicked
    exact ⟨rfl, rfl⟩
  have hlive : ∀ kernel, liveDirectories { kernel := kernel, sched := sched } =
      liveDirectories system := by
    intro kernel
    ext directory
    simp only [liveDirectories, System.pageDir, Set.mem_ofPred_eq, hkeeps]
  constructor
  · rw [hlive]
    apply hshared.half.switch
    refine ⟨sched.currentPid, hpid, ?_⟩
    rw [System.pageDir, (hkeeps _).2]
  · rw [(hkeeps _).1]
    exact hpid
  · rw [hlength]
    exact hqueue
  · intro i hi
    rw [hlength] at hi
    rw [(hkeeps _).1, hentries]
    exact hshared.queued i hi

/-! ## Runs -/

theorem Shared.step {system next : System} (hshared : Shared system) {event : Event}
    (hguard : MakesNoTable system event)
    (hstep : Fork.step system event = some next) : Shared next := by
  cases event with
  | map vaddr paddr flags =>
      obtain ⟨machine, hmap, hresult⟩ := Option.bind_eq_some_iff.mp hstep
      obtain rfl := Option.some.inj hresult
      obtain ⟨machine', hmap', hhalf, -⟩ :=
        hshared.half.map hguard.1 hguard.2 paddr flags
      obtain rfl := Option.some.inj (hmap'.symm.trans hmap)
      exact hshared.setMachine hhalf
  | kmalloc sizePgs =>
      obtain ⟨⟨kernel, addr⟩, hcall, hresult⟩ := Option.bind_eq_some_iff.mp hstep
      obtain rfl := Option.some.inj hresult
      exact hshared.setMachine (hshared.half.kmalloc hguard hcall)
  | kmallocPagePaddr paddr sizePgs =>
      obtain ⟨⟨machine, addr⟩, hcall, hresult⟩ := Option.bind_eq_some_iff.mp hstep
      obtain rfl := Option.some.inj hresult
      obtain ⟨page, hfit, hroom⟩ := hguard
      obtain ⟨machine', hcall', hhalf, -⟩ :=
        hshared.half.kmallocPagePaddr hfit hroom paddr
      obtain ⟨rfl, -⟩ := Prod.mk.inj (Option.some.inj (hcall'.symm.trans hcall))
      exact hshared.setMachine hhalf
  | fork regs =>
      obtain ⟨hserved, home, pair, hfits⟩ := hguard
      exact hshared.fork hserved hfits hstep
  | schedule esp => exact hshared.schedule hstep

/-- The kernel halves of two live processes agree. -/
def HalvesAgree (system : System) : Prop :=
  ∀ pid other, (system.sched.processes pid).present = true →
    (system.sched.processes other).present = true →
    ∀ slot : BitVec 10, 768 ≤ slot.toNat → slot.toNat ≤ 1022 →
      system.kernel.machine.mem (frameOf (system.pageDir pid)) slot =
        system.kernel.machine.mem (frameOf (system.pageDir other)) slot

theorem Shared.halvesAgree {system : System} (hshared : Shared system) :
    HalvesAgree system := by
  intro pid other hpid hother slot hlow hhigh
  have hslot : slot ∈ kernelSlots := ⟨hlow, by omega⟩
  rw [hshared.half.agree _ ⟨pid, hpid, rfl⟩ slot hslot,
    hshared.half.agree _ ⟨other, hother, rfl⟩ slot hslot]

/-- All address spaces share the kernel half, in every run in which no kernel
table is made in one of several directories. -/
theorem kernel_half_shared {system final : System} (hinit : Shared system)
    {events : List Event} (hmeets : Meets step MakesNoTable system events)
    (hrun : exec step system events = some final) : HalvesAgree final := by
  have hpreserve : ∀ state event next, Shared state → MakesNoTable state event →
      step state event = some next → Shared next := by
    intro state event next hshared hguard hstep
    exact hshared.step hguard hstep
  exact (exec_invariant hpreserve hinit hmeets hrun).halvesAgree

/-! ## Two processes -/

/-- Two processes whose directories, frames 1 and 2, share one kernel table in
frame 3. -/
def twoProcesses : System where
  kernel :=
    { machine :=
        { mem := fun frame index =>
            if frame = 1 ∨ frame = 2 then
              if index = 768 then 0x3001
              else if index = 1023 then
                if frame = 1 then 0x1001 else 0x2001
              else 0
            else 0
          cr3 := 0x1000
          frames := ⟨fun byte => if byte = 0 then 0x0f else 0, 0⟩ }
      heap := ⟨fun _ => 0, 0, 0, 0⟩ }
  sched :=
    { processes := fun pid =>
        if pid = 0 then ⟨true, false, true, 0, 0, 0x1000, 0⟩
        else if pid = 1 then ⟨true, false, false, 0, 0, 0x2000, 0⟩
        else ⟨false, false, false, 0, 0, 0, 0⟩
      processQueue := fun i => i
      activeProcesses := 2
      currentPid := 0
      queueLength := 2
      currentQueueIndex := 0 }

theorem twoProcesses_live {directory : BitVec 20}
    (hlive : directory ∈ liveDirectories twoProcesses) :
    directory = 1 ∨ directory = 2 := by
  obtain ⟨pid, hpresent, rfl⟩ := hlive
  rcases pid with _ | _ | pid
  · exact .inl (by decide)
  · exact .inr (by decide)
  · cases hpresent

theorem twoProcesses_directory : twoProcesses.kernel.machine.directory = 1 := by
  change frameOf 0x1000 = 1
  decide

theorem twoProcesses_mem {directory : BitVec 20}
    (hdirectory : directory = 1 ∨ directory = 2) {slot : BitVec 10}
    (hslot : slot ∈ kernelSlots) :
    twoProcesses.kernel.machine.mem directory slot =
      if slot = 768 then 0x3001 else 0 := by
  have hlast : slot ≠ 1023 := by
    rintro rfl
    exact absurd hslot.2 (by decide)
  simp only [twoProcesses, if_pos hdirectory, if_neg hlast]

theorem twoProcesses_pde {slot : BitVec 10} (hslot : slot ∈ kernelSlots) :
    twoProcesses.kernel.machine.pde slot = if slot = 768 then 0x3001 else 0 := by
  rw [Machine.pde, twoProcesses_directory]
  exact twoProcesses_mem (.inl rfl) hslot

theorem twoProcesses_slot {slot : BitVec 10} (hslot : slot ∈ kernelSlots)
    (hne : twoProcesses.kernel.machine.pde slot ≠ 0) : slot = 768 := by
  rw [twoProcesses_pde hslot] at hne
  by_contra hother
  exact hne (if_neg hother)

theorem twoProcesses_isTable {frame : BitVec 20}
    (htable : IsTable twoProcesses.kernel.machine frame) : frame = 3 := by
  obtain ⟨slot, hslot, hne, hframe⟩ := htable
  have heq := twoProcesses_slot hslot hne
  rw [hframe, twoProcesses_pde hslot, if_pos heq]
  decide

theorem twoProcesses_shared : Shared twoProcesses := by
  constructor
  · constructor
    · exact ⟨0, rfl, by decide⟩
    · intro directory hlive
      rcases twoProcesses_live hlive with rfl | rfl
      · exact ⟨by decide, by decide⟩
      · exact ⟨by decide, by decide⟩
    · intro directory hlive slot hslot
      rw [twoProcesses_mem (twoProcesses_live hlive) hslot, twoProcesses_pde hslot]
    · intro slot hslot hne
      rw [twoProcesses_pde hslot, if_pos (twoProcesses_slot hslot hne)]
      decide
    · intro slot hslot other hother hne hne' _
      rw [twoProcesses_slot hslot hne, twoProcesses_slot hother hne']
    · intro directory hlive htable
      have hthree := twoProcesses_isTable htable
      rcases twoProcesses_live hlive with rfl | rfl
      · exact absurd hthree (by decide)
      · exact absurd hthree (by decide)
    · intro directory hlive
      rcases twoProcesses_live hlive with rfl | rfl
      · decide
      · decide
    · intro frame htable
      obtain rfl := twoProcesses_isTable htable
      decide
  · rfl
  · decide
  · intro i hi
    change i < 2 at hi
    rcases i with _ | _ | i
    · rfl
    · rfl
    · omega

/-- A mapping in the table that is there, after a switch to the other process. -/
theorem kernel_half_shared_tabled :
    ∃ final, exec step twoProcesses
        [.map 0xc0001000 0x5000 3, .schedule 0] = some final ∧
      HalvesAgree final := by
  have hslot : pdIndex 0xc0001000 ∈ kernelSlots := ⟨by decide, by decide⟩
  have hne : twoProcesses.kernel.machine.pde (pdIndex 0xc0001000) ≠ 0 := by decide
  obtain ⟨machine, hmap, -⟩ :=
    twoProcesses_shared.half.map_tabled hslot hne 0x5000 3
  have hfirst : step twoProcesses (.map 0xc0001000 0x5000 3) =
      some (setMachine twoProcesses machine) := by
    simp only [step, hmap, Option.bind_eq_bind, Option.bind_some]
  obtain ⟨sched, hpicked⟩ : ∃ sched,
      Scheduler.schedule twoProcesses.sched 0 = some sched := ⟨_, rfl⟩
  obtain ⟨final, hsecond⟩ : ∃ final,
      step (setMachine twoProcesses machine) (.schedule 0) = some final := by
    have hcall : Scheduler.schedule (setMachine twoProcesses machine).sched 0 =
        some sched := hpicked
    simp only [step, Fork.schedule, hcall, Option.bind_eq_bind, Option.bind_some]
    exact ⟨_, rfl⟩
  have hrun : exec step twoProcesses [.map 0xc0001000 0x5000 3, .schedule 0] =
      some final :=
    exec_cons_eq_some.mpr ⟨_, hfirst, exec_cons_eq_some.mpr ⟨_, hsecond, rfl⟩⟩
  refine ⟨final, hrun, kernel_half_shared twoProcesses_shared ?_ hrun⟩
  apply meets_cons_intro ⟨hslot, .inl hne⟩
  intro next _
  apply meets_cons_intro trivial
  intro _ _
  trivial

/-- A mapping whose table is not there makes the halves differ. -/
theorem kernel_half_split :
    Shared twoProcesses ∧
      ∃ final, exec step twoProcesses [.map 0xc0400000 0x5000 3] = some final ∧
        ¬ HalvesAgree final := by
  have hslot : pdIndex 0xc0400000 ∈ kernelSlots := ⟨by decide, by decide⟩
  have hempty : twoProcesses.kernel.machine.pde (pdIndex 0xc0400000) = 0 := by decide
  have hserved : (pmAlloc twoProcesses.kernel.machine.frames).2 ≠ 0 := by
    decide +kernel
  have hother : (2 : BitVec 20) ∈ liveDirectories twoProcesses :=
    ⟨1, rfl, by decide⟩
  have hne : (2 : BitVec 20) ≠ twoProcesses.kernel.machine.directory := by decide
  obtain ⟨machine, hmap, hsplit⟩ := twoProcesses_shared.half.map_splits hslot hempty
    hserved hother hne 0x5000 3
  have hstep : step twoProcesses (.map 0xc0400000 0x5000 3) =
      some (setMachine twoProcesses machine) := by
    simp only [step, hmap, Option.bind_eq_bind, Option.bind_some]
  refine ⟨twoProcesses_shared, _, exec_cons_eq_some.mpr ⟨_, hstep, rfl⟩, ?_⟩
  intro hagree
  have hfirst : frameOf (twoProcesses.pageDir 1) = 2 := by decide
  have hsecond : frameOf (twoProcesses.pageDir 0) = 1 := by decide
  have hwords := hagree 1 0 rfl rfl (pdIndex 0xc0400000) (by decide) (by decide)
  change machine.mem (frameOf (twoProcesses.pageDir 1)) _ =
    machine.mem (frameOf (twoProcesses.pageDir 0)) _ at hwords
  rw [hfirst, hsecond] at hwords
  rw [twoProcesses_directory] at hsplit
  exact hsplit hwords

end KimisOS.Fork
