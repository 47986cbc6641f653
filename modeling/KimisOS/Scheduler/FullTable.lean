import KimisOS.Scheduler.Queue

/-!
# A full process table

`spawn_new_process` looks for a slot from the current pid on, around the end
of the table, until it is back where it started; then it returns `-1`.
`thread_start` and `fork` use the result as an index without a look at it.
Here a loop has no result while it runs, and a store outside its array is an
outcome of its own.
-/

namespace KimisOS.FullTable

open KimisOS.Scheduler

/-- The fields of `cpu_registers_t` in order; `ebp` is the seventh, `esp` the
eighth and `eip` the fifteenth of 19. -/
abbrev Registers := ℕ → BitVec 32

def registerBytes : ℕ := 76

/-- `process_t`. -/
structure ProcessEntry where
  argv : BitVec 32
  argc : BitVec 32
  cpuregs : Registers
  pageDir : BitVec 32
  blocked : Bool
  system : Bool
  cpuLvl : Bool
  priority : BitVec 3
  present : Bool
  ran : Bool
  fileDescriptors : BitVec 32
  maxDescriptors : BitVec 32
  exitValue : BitVec 32
  threadId : BitVec 32
  parent : ℕ
  uid : BitVec 32
  gid : BitVec 32
  brk : BitVec 32
  stackStart : BitVec 32
  esp0 : BitVec 32

/-- The globals of the scheduler.  An entry of `processes` past the table is
what a read there finds. -/
structure Table where
  processes : ℕ → ProcessEntry
  processQueue : ℕ → ℕ
  activeProcesses : ℕ
  currentPid : ℕ
  queueLength : ℕ
  currentQueueIndex : ℕ

inductive Place where
  | processes
  | processQueue

/-- How far a call has come. -/
inductive Outcome (α : Type) where
  | running
  | outside (place : Place) (index : ℕ)
  | returned (value : α)

def Outcome.bind {α β : Type} (outcome : Outcome α) (next : α → Outcome β) :
    Outcome β :=
  match outcome with
  | .running => .running
  | .outside place index => .outside place index
  | .returned value => next value

@[simp]
theorem bind_returned {α β : Type} (value : α) (next : α → Outcome β) :
    (Outcome.returned value).bind next = next value := rfl

@[simp]
theorem bind_outside {α β : Type} (place : Place) (index : ℕ)
    (next : α → Outcome β) :
    (Outcome.outside place index).bind next = .outside place index := rfl

/-! ## `spawn_new_process` -/

/-- `processes[pid] = entry`. -/
def setProcess (table : Table) (pid : ℕ) (entry : ProcessEntry) : Outcome Table :=
  if pid < processCount then
    .returned { table with
      processes := Function.update table.processes pid entry }
  else .outside .processes pid

def addProcessQueueNolock (table : Table) (pid : ℕ) : Outcome Table :=
  if table.queueLength < processCount then
    .returned { table with
      processQueue := Function.update table.processQueue table.queueLength pid
      queueLength := table.queueLength + 1 }
  else .outside .processQueue table.queueLength

/-- The slot after one, around the end of the table. -/
def nextSlot (i : ℕ) : ℕ := if i + 1 ≥ processCount then 0 else i + 1

/-- The search from slot `i`: nothing while it runs, `some none` when it is
back at the current pid. -/
def searchSlot (table : Table) : ℕ → ℕ → Option (Option ℕ)
  | 0, _ => none
  | rounds + 1, i =>
      if (table.processes i).present then
        if nextSlot i = table.currentPid then some none
        else searchSlot table rounds (nextSlot i)
      else some (some i)

/-- The arguments of `spawn_new_process`, and the page that `kmalloc` gives it
for the file descriptors. -/
structure Request where
  defaultregs : Registers
  argv : BitVec 32
  argc : BitVec 32
  cr3 : BitVec 32
  fileDescriptors : BitVec 32

def defaultFdMax : BitVec 32 := 1024

/-- `process_t new_proc = {0}`. -/
def zeroProcess : ProcessEntry :=
  ⟨0, 0, fun _ => 0, 0, false, false, false, 0, false, false, 0, 0, 0, 0, 0, 0, 0,
    0, 0, 0⟩

def newProcess (table : Table) (request : Request) : ProcessEntry :=
  { zeroProcess with
    argc := request.argc
    argv := request.argv
    pageDir := request.cr3
    cpuregs := request.defaultregs
    parent := table.currentPid
    present := true
    cpuLvl := true
    priority := 0
    system := (table.processes table.currentPid).system
    fileDescriptors := request.fileDescriptors
    maxDescriptors := defaultFdMax }

/-- `(uint32_t)-1`. -/
def noPid : ℕ := 0xffffffff

/-- `spawn_new_process` after so many rounds of its search: the table and the
pid returned. -/
def spawnNewProcess (table : Table) (rounds : ℕ) (request : Request) :
    Outcome (Table × ℕ) :=
  match searchSlot table rounds table.currentPid with
  | none => .running
  | some none => .returned (table, noPid)
  | some (some i) =>
      let counted := { table with activeProcesses := table.activeProcesses + 1 }
      (setProcess counted i (newProcess table request)).bind fun spawned =>
        (addProcessQueueNolock spawned i).bind fun queued =>
          .returned (queued, i)

/-! ## Its callers -/

/-- The registers that `thread_start` gives a thread with this stack. -/
def threadRegisters (stack function : BitVec 32) : Registers := fun field =>
  let esp := stack + 4096 * 8 - 4 - BitVec.ofNat 32 registerBytes
  match field with
  | 2 => 0x18
  | 3 => 0x18
  | 6 => esp
  | 7 => esp
  | 14 => function
  | 15 => 0x10
  | 16 => 0x202
  | 18 => 0x18
  | _ => 0

def threadRequest (stack function fileDescriptors : BitVec 32) : Request where
  defaultregs := threadRegisters stack function
  argv := 0
  argc := 0
  cr3 := 0x10000
  fileDescriptors := fileDescriptors

/-- `thread_start` with the stack that `kmalloc` has returned. -/
def threadStart (table : Table) (rounds : ℕ)
    (stack function fileDescriptors : BitVec 32) : Outcome (Table × ℕ) :=
  let request := threadRequest stack function fileDescriptors
  (spawnNewProcess table rounds request).bind fun (spawned, retpid) =>
    (setProcess spawned retpid
      { spawned.processes retpid with parent := spawned.currentPid }).bind
    fun named =>
      (setProcess named retpid
        { named.processes retpid with esp0 := request.defaultregs 7 }).bind
      fun started => .returned (started, retpid)

def forkRequest (regs : Registers) (newPd fileDescriptors : BitVec 32) :
    Request where
  defaultregs := regs
  argv := 0
  argc := 0
  cr3 := newPd
  fileDescriptors := fileDescriptors

/-- `fork` from `spawn_new_process` on: the table and the `eax` of its
caller. -/
def forkProcess (table : Table) (rounds : ℕ) (regs : Registers)
    (newPd fileDescriptors : BitVec 32) : Outcome (Table × ℕ) :=
  (spawnNewProcess table rounds (forkRequest regs newPd fileDescriptors)).bind
  fun (spawned, retpid) =>
    (setProcess spawned retpid (spawned.processes spawned.currentPid)).bind
    fun copied =>
      (setProcess copied retpid
        { copied.processes retpid with cpuregs := regs }).bind
      fun placed =>
        (setProcess placed retpid
          { placed.processes retpid with parent := placed.currentPid }).bind
        fun named =>
          (setProcess named retpid
            { named.processes retpid with pageDir := newPd }).bind
          fun forked => .returned (forked, retpid)

/-! ## What a full table asks for -/

/-- All slots are present. -/
def Full (table : Table) : Prop :=
  ∀ pid < processCount, (table.processes pid).present = true

/-- The slots, the run queue and the number of processes are the same. -/
structure Unchanged (table next : Table) : Prop where
  processes : ∀ pid < processCount, next.processes pid = table.processes pid
  processQueue : next.processQueue = table.processQueue
  queueLength : next.queueLength = table.queueLength
  activeProcesses : next.activeProcesses = table.activeProcesses

/-- A new process gets a slot that was not present, and no other slot
changes. -/
structure TakesSlot (table next : Table) (pid : ℕ) : Prop where
  inside : pid < processCount
  free : (table.processes pid).present = false
  others : ∀ other < processCount, other ≠ pid →
    next.processes other = table.processes other

/-- `spawn_new_process` terminates, with `-1` exactly on a full table, and its
callers report that without a change to the table or a store outside it. -/
structure Handled (table : Table) : Prop where
  spawn : ∀ request, ∃ rounds next pid,
    spawnNewProcess table rounds request = .returned (next, pid) ∧
      (pid = noPid ↔ Full table) ∧ (pid ≠ noPid → TakesSlot table next pid)
  threadStart : ∀ rounds spawned stack function fileDescriptors,
    spawnNewProcess table rounds (threadRequest stack function fileDescriptors) =
        .returned (spawned, noPid) →
      ∃ next, threadStart table rounds stack function fileDescriptors =
        .returned (next, noPid) ∧ Unchanged table next
  fork : ∀ rounds spawned regs newPd fileDescriptors,
    spawnNewProcess table rounds (forkRequest regs newPd fileDescriptors) =
        .returned (spawned, noPid) →
      ∃ next, forkProcess table rounds regs newPd fileDescriptors =
        .returned (next, noPid) ∧ Unchanged table next

/-- A slot is free, the search starts in the table or goes on into it, and the
queue has room for the pid. -/
structure HasRoom (table : Table) : Prop where
  slot : ∃ pid < processCount, (table.processes pid).present = false
  current : table.currentPid < processCount ∨
    (table.processes table.currentPid).present = true
  queue : table.queueLength < processCount

/-! ## The search -/

variable {table : Table}

theorem nextSlot_lt (i : ℕ) : nextSlot i < processCount := by
  unfold nextSlot
  split
  · decide
  · omega

theorem nextSlot_eq {i : ℕ} (hi : i < processCount) :
    nextSlot i = (i + 1) % processCount := by
  unfold nextSlot
  split
  · have hend : i + 1 = processCount := by omega
    rw [hend, Nat.mod_self]
  · rw [Nat.mod_eq_of_lt (by omega)]

theorem searchSlot_skip {i rounds : ℕ} (hpresent : (table.processes i).present = true)
    (hnext : nextSlot i ≠ table.currentPid) :
    searchSlot table (rounds + 1) i = searchSlot table rounds (nextSlot i) := by
  rw [searchSlot, if_pos hpresent, if_neg hnext]

theorem searchSlot_stop {i rounds : ℕ}
    (hfree : (table.processes i).present = false) :
    searchSlot table (rounds + 1) i = some (some i) := by
  rw [searchSlot, if_neg (by simp [hfree])]

/-- More rounds change nothing once the search has ended. -/
theorem searchSlot_add {rounds i : ℕ} {result : Option ℕ}
    (hsearch : searchSlot table rounds i = some result) (more : ℕ) :
    searchSlot table (rounds + more) i = some result := by
  induction rounds generalizing i with
  | zero => simp [searchSlot] at hsearch
  | succ rounds ih =>
      rw [Nat.succ_add]
      by_cases hpresent : (table.processes i).present = true
      · by_cases hnext : nextSlot i = table.currentPid
        · rw [searchSlot, if_pos hpresent, if_pos hnext] at hsearch ⊢
          exact hsearch
        · rw [searchSlot_skip hpresent hnext] at hsearch ⊢
          exact ih hsearch
      · rw [searchSlot, if_neg hpresent] at hsearch ⊢
        exact hsearch

theorem searchSlot_unique {rounds rounds' i : ℕ} {result result' : Option ℕ}
    (hsearch : searchSlot table rounds i = some result)
    (hsearch' : searchSlot table rounds' i = some result') : result = result' := by
  have hmore := searchSlot_add hsearch rounds'
  rw [Nat.add_comm, searchSlot_add hsearch' rounds] at hmore
  exact (Option.some.inj hmore).symm

/-- Over slots that are present and not before the current pid, the search
goes on. -/
theorem searchSlot_ahead {i : ℕ} (hi : i < processCount) (rounds : ℕ) {k : ℕ}
    (hpresent : ∀ j < k, (table.processes ((i + j) % processCount)).present = true)
    (hcurrent : ∀ j < k, (i + (j + 1)) % processCount ≠ table.currentPid) :
    searchSlot table (rounds + k) i =
      searchSlot table rounds ((i + k) % processCount) := by
  induction k generalizing rounds with
  | zero => rw [Nat.add_zero, Nat.add_zero, Nat.mod_eq_of_lt hi]
  | succ k ih =>
      have hnext : nextSlot ((i + k) % processCount) =
          (i + (k + 1)) % processCount := by
        rw [nextSlot_eq (Nat.mod_lt _ (by decide)), Nat.mod_add_mod, Nat.add_assoc]
      have hearlier := ih (rounds + 1) (fun j hj => hpresent j (by omega))
        (fun j hj => hcurrent j (by omega))
      rw [show rounds + (k + 1) = rounds + 1 + k by omega, hearlier,
        searchSlot_skip (hpresent k (by omega)), hnext]
      rw [hnext]
      exact hcurrent k (by omega)

/-- A round trip of the table ends at its start, and not before. -/
theorem add_mod_ne {i j : ℕ} (hlow : 0 < j) (hhigh : j < processCount) :
    (i + j) % processCount ≠ i := by
  intro hsame
  unfold processCount at *
  omega

/-- From its start, or in the table when it has started past it, the search
finds a free slot. -/
theorem searchSlot_finds {i : ℕ} (hi : i < processCount)
    (hstart : i = table.currentPid ∨ processCount ≤ table.currentPid)
    (hslot : ∃ pid < processCount, (table.processes pid).present = false) :
    ∃ rounds ≤ processCount, ∃ pid, searchSlot table rounds i = some (some pid) ∧
      pid < processCount ∧ (table.processes pid).present = false := by
  have hahead : ∃ k, (table.processes ((i + k) % processCount)).present = false := by
    obtain ⟨pid, hpid, hfree⟩ := hslot
    refine ⟨pid + processCount - i, ?_⟩
    have hplace : (i + (pid + processCount - i)) % processCount = pid := by
      rw [show i + (pid + processCount - i) = pid + processCount by omega,
        Nat.add_mod_right, Nat.mod_eq_of_lt hpid]
    rwa [hplace]
  have hleast := Nat.find_spec hahead
  have hbefore : ∀ j < Nat.find hahead,
      (table.processes ((i + j) % processCount)).present = true := by
    intro j hj
    simpa using Nat.find_min hahead hj
  generalize Nat.find hahead = k at hleast hbefore
  have hround : k < processCount := by
    by_contra hlarge
    have hearlier := hbefore (k - processCount) (by
      have : 0 < processCount := by decide
      omega)
    rw [← Nat.add_mod_right, show i + (k - processCount) + processCount = i + k by
      omega, hleast] at hearlier
    cases hearlier
  have hcurrent : ∀ j < k, (i + (j + 1)) % processCount ≠ table.currentPid := by
    intro j hj
    rcases hstart with hstart | hstart
    · rw [← hstart]
      exact add_mod_ne (by omega) (by omega)
    · have hinside : (i + (j + 1)) % processCount < processCount :=
        Nat.mod_lt _ (by decide)
      omega
  refine ⟨1 + k, by omega, (i + k) % processCount, ?_, Nat.mod_lt _ (by decide),
    hleast⟩
  rw [searchSlot_ahead hi 1 hbefore hcurrent, searchSlot_stop hleast]

/-- On a full table it comes back to a start inside. -/
theorem searchSlot_full (hcurrent : table.currentPid < processCount)
    (hfull : Full table) :
    searchSlot table (1 + (processCount - 1)) table.currentPid = some none := by
  have hpresent : ∀ j, (table.processes
      ((table.currentPid + j) % processCount)).present = true :=
    fun j => hfull _ (Nat.mod_lt _ (by decide))
  have hback : nextSlot ((table.currentPid + (processCount - 1)) % processCount) =
      table.currentPid := by
    have hpositive : 0 < processCount := by decide
    rw [nextSlot_eq (Nat.mod_lt _ hpositive), Nat.mod_add_mod,
      show table.currentPid + (processCount - 1) + 1 =
        table.currentPid + processCount by omega,
      Nat.add_mod_right, Nat.mod_eq_of_lt hcurrent]
  rw [searchSlot_ahead hcurrent 1 (fun j _ => hpresent j)
    (fun j hj => add_mod_ne (by omega) (by omega)), searchSlot,
    if_pos (hpresent _), if_pos hback]

/-- It never comes back to a start past the table. -/
theorem searchSlot_runs (hcurrent : processCount ≤ table.currentPid)
    (hfull : Full table) {i : ℕ} (hi : i < processCount) (rounds : ℕ) :
    searchSlot table rounds i = none := by
  induction rounds generalizing i with
  | zero => rfl
  | succ rounds ih =>
      have hnext := nextSlot_lt i
      rw [searchSlot_skip (hfull i hi) (by omega)]
      exact ih hnext

/-! ## The table the scheduler sees -/

def ProcessEntry.view (entry : ProcessEntry) : Process where
  present := entry.present
  blocked := entry.blocked
  system := entry.system
  parent := entry.parent
  exitValue := entry.exitValue.toNat
  pageDir := entry.pageDir.toNat
  esp := (entry.cpuregs 7).toNat

def Table.view (table : Table) : SchedState where
  processes pid := (table.processes pid).view
  processQueue := table.processQueue
  activeProcesses := table.activeProcesses
  currentPid := table.currentPid
  queueLength := table.queueLength
  currentQueueIndex := table.currentQueueIndex

theorem findSlot_view {rounds i : ℕ} {result : Option ℕ}
    (hsearch : searchSlot table rounds i = some result) (more : ℕ) :
    findSlot table.view (rounds + more) i = result := by
  induction rounds generalizing i with
  | zero => simp [searchSlot] at hsearch
  | succ rounds ih =>
      have hview : (table.view.processes i).present = (table.processes i).present :=
        rfl
      rw [Nat.succ_add]
      simp only [findSlot, hview]
      by_cases hpresent : (table.processes i).present = true
      · rw [if_pos hpresent]
        by_cases hnext : nextSlot i = table.currentPid
        · rw [searchSlot, if_pos hpresent, if_pos hnext] at hsearch
          exact (if_pos hnext).trans (Option.some.inj hsearch)
        · rw [searchSlot_skip hpresent hnext] at hsearch
          exact (if_neg hnext).trans (ih hsearch)
      · rw [searchSlot, if_neg hpresent] at hsearch
        rw [if_neg hpresent]
        exact Option.some.inj hsearch

/-- A search from inside the table ends after one round a slot at most. -/
theorem freeSlot_view (hcurrent : table.currentPid < processCount) {rounds : ℕ}
    {result : Option ℕ}
    (hsearch : searchSlot table rounds table.currentPid = some result) :
    freeSlot table.view = result := by
  have hends : ∃ rounds ≤ processCount, ∃ result,
      searchSlot table rounds table.currentPid = some result := by
    by_cases hslot : ∃ pid < processCount, (table.processes pid).present = false
    · obtain ⟨rounds, hrounds, pid, hfound, -⟩ :=
        searchSlot_finds hcurrent (.inl rfl) hslot
      exact ⟨rounds, hrounds, _, hfound⟩
    · have hfull : Full table := by
        intro pid hpid
        by_contra hfree
        exact hslot ⟨pid, hpid, by simpa using hfree⟩
      exact ⟨1 + (processCount - 1), by decide, _, searchSlot_full hcurrent hfull⟩
  obtain ⟨ended, hrounds, result', hends⟩ := hends
  have hfind := findSlot_view hends (processCount - ended)
  rw [Nat.add_sub_cancel' hrounds] at hfind
  rw [searchSlot_unique hsearch hends]
  exact hfind

/-! ## `spawn_new_process` and its callers -/

/-- The table with a new process in slot `i`, last in the queue. -/
def queued (table : Table) (i : ℕ) (request : Request) : Table where
  processes := Function.update table.processes i (newProcess table request)
  processQueue := Function.update table.processQueue table.queueLength i
  activeProcesses := table.activeProcesses + 1
  currentPid := table.currentPid
  queueLength := table.queueLength + 1
  currentQueueIndex := table.currentQueueIndex

theorem spawnNewProcess_found {rounds i : ℕ} (request : Request)
    (hsearch : searchSlot table rounds table.currentPid = some (some i))
    (hi : i < processCount) (hqueue : table.queueLength < processCount) :
    spawnNewProcess table rounds request =
      .returned (queued table i request, i) := by
  simp only [spawnNewProcess, hsearch, setProcess, if_pos hi, bind_returned,
    addProcessQueueNolock, if_pos hqueue]
  rfl

theorem spawnNewProcess_none {rounds : ℕ} (request : Request)
    (hsearch : searchSlot table rounds table.currentPid = some none) :
    spawnNewProcess table rounds request = .returned (table, noPid) := by
  simp only [spawnNewProcess, hsearch]

/-- How `spawn_new_process` returns. -/
theorem spawnNewProcess_cases {rounds pid : ℕ} {request : Request} {next : Table}
    (hspawn : spawnNewProcess table rounds request = .returned (next, pid)) :
    (searchSlot table rounds table.currentPid = some none ∧ next = table ∧
        pid = noPid) ∨
      (searchSlot table rounds table.currentPid = some (some pid) ∧
        pid < processCount ∧ table.queueLength < processCount ∧
        next = queued table pid request) := by
  unfold spawnNewProcess at hspawn
  match hsearch : searchSlot table rounds table.currentPid with
  | none => simp [hsearch] at hspawn
  | some none =>
      simp only [hsearch, Outcome.returned.injEq, Prod.mk.injEq] at hspawn
      exact .inl ⟨rfl, hspawn.1.symm, hspawn.2.symm⟩
  | some (some i) =>
      by_cases hi : i < processCount
      · by_cases hqueue : table.queueLength < processCount
        · have hfound := spawnNewProcess_found request hsearch hi hqueue
          simp only [spawnNewProcess] at hfound
          rw [hfound] at hspawn
          simp only [Outcome.returned.injEq, Prod.mk.injEq] at hspawn
          obtain ⟨rfl, rfl⟩ := hspawn
          exact .inr ⟨rfl, hi, hqueue, rfl⟩
        · simp [hsearch, setProcess, hi, addProcessQueueNolock, hqueue] at hspawn
      · simp [hsearch, setProcess, hi] at hspawn

/-- `spawn_new_process` of the scheduler's model is this one, up to what the scheduler sees
of the table. -/
theorem spawnNewProcess_view (hcurrent : table.currentPid < processCount)
    {rounds pid : ℕ} {request : Request} {next : Table}
    (hspawn : spawnNewProcess table rounds request = .returned (next, pid)) :
    Scheduler.spawnNewProcess table.view (request.defaultregs 7).toNat
        request.cr3.toNat =
      some (next.view, if pid = noPid then none else some pid) := by
  rcases spawnNewProcess_cases hspawn with
    ⟨hsearch, rfl, rfl⟩ | ⟨hsearch, hpid, hqueue, rfl⟩
  · simp only [Scheduler.spawnNewProcess, freeSlot_view hcurrent hsearch, if_true]
  · have hne : pid ≠ noPid := by
      rintro rfl
      exact absurd hpid (by decide)
    have hadd : addProcessQueue
        { table.view.setProcess pid (newProcess table request).view with
          activeProcesses := table.view.activeProcesses + 1 } pid =
        some (queued table pid request).view := by
      refine (if_pos hqueue).trans ?_
      simp only [Table.view, queued, SchedState.setProcess, Function.apply_update
        (fun _ => ProcessEntry.view)]
    have hnew : (newProcess table request).view =
        { present := true
          blocked := false
          system := (table.view.processes table.view.currentPid).system
          parent := table.view.currentPid
          exitValue := 0
          pageDir := request.cr3.toNat
          esp := (request.defaultregs 7).toNat } := rfl
    rw [hnew] at hadd
    simp only [Scheduler.spawnNewProcess, freeSlot_view hcurrent hsearch, if_neg hne,
      hadd]

theorem noPid_outside : ¬ noPid < processCount := by decide

theorem queued_takesSlot {i : ℕ} (request : Request) (hi : i < processCount)
    (hfree : (table.processes i).present = false) :
    TakesSlot table (queued table i request) i where
  inside := hi
  free := hfree
  others _ _ hother := Function.update_of_ne hother _ _

/-- With `-1`, the first store of `thread_start` is one slot before the
table. -/
theorem threadStart_none {rounds : ℕ} {spawned : Table}
    {stack function fileDescriptors : BitVec 32}
    (hspawn : spawnNewProcess table rounds
      (threadRequest stack function fileDescriptors) = .returned (spawned, noPid)) :
    threadStart table rounds stack function fileDescriptors =
      .outside .processes noPid := by
  simp only [threadStart, hspawn, bind_returned, setProcess, if_neg noPid_outside,
    bind_outside]

/-- The search of a table that is not full. -/
theorem HasRoom.searchSlot (hroom : HasRoom table) :
    ∃ rounds pid, FullTable.searchSlot table rounds table.currentPid =
        some (some pid) ∧
      pid < processCount ∧ (table.processes pid).present = false := by
  by_cases hcurrent : table.currentPid < processCount
  · obtain ⟨rounds, -, hfound⟩ := searchSlot_finds hcurrent (.inl rfl) hroom.slot
    exact ⟨rounds, hfound⟩
  · have hpresent := hroom.current.resolve_left hcurrent
    have hnext : nextSlot table.currentPid ≠ table.currentPid := by
      have := nextSlot_lt table.currentPid
      omega
    obtain ⟨rounds, -, pid, hsearch, hpid, hfree⟩ :=
      searchSlot_finds (nextSlot_lt table.currentPid) (.inr (by omega)) hroom.slot
    refine ⟨rounds + 1, pid, ?_, hpid, hfree⟩
    rw [searchSlot_skip hpresent hnext, hsearch]

/-- It never returns `-1`. -/
theorem HasRoom.ne_noPid (hroom : HasRoom table) {rounds : ℕ} {request : Request}
    {next : Table} :
    spawnNewProcess table rounds request ≠ .returned (next, noPid) := by
  intro hspawn
  obtain ⟨rounds', pid, hfound, -, -⟩ := hroom.searchSlot
  rcases spawnNewProcess_cases hspawn with ⟨hsearch, -, -⟩ | ⟨-, houtside, -⟩
  · cases searchSlot_unique hsearch hfound
  · exact noPid_outside houtside

theorem HasRoom.handled (hroom : HasRoom table) : Handled table where
  spawn request := by
    obtain ⟨rounds, pid, hsearch, hpid, hfree⟩ := hroom.searchSlot
    refine ⟨rounds, _, pid, spawnNewProcess_found request hsearch hpid hroom.queue,
      ?_, fun _ => queued_takesSlot request hpid hfree⟩
    constructor
    · rintro rfl
      exact absurd hpid noPid_outside
    · intro hfull
      rw [hfull pid hpid] at hfree
      cases hfree
  threadStart _ _ _ _ _ hspawn := absurd hspawn hroom.ne_noPid
  fork _ _ _ _ _ hspawn := absurd hspawn hroom.ne_noPid

/-- A search that starts past the table at a process that is not present
stops there. -/
theorem Handled.current (hhandled : Handled table) :
    table.currentPid < processCount ∨
      (table.processes table.currentPid).present = true := by
  by_contra hnot
  rw [not_or, Bool.not_eq_true] at hnot
  obtain ⟨houtside, hfree⟩ := hnot
  obtain ⟨rounds, next, pid, hspawn, -, -⟩ := hhandled.spawn (threadRequest 0 0 0)
  have hstop : searchSlot table 1 table.currentPid =
      some (some table.currentPid) := searchSlot_stop hfree
  rcases spawnNewProcess_cases hspawn with ⟨hsearch, -, -⟩ | ⟨hsearch, hpid, -⟩
  · cases searchSlot_unique hsearch hstop
  · obtain rfl := Option.some.inj (searchSlot_unique hsearch hstop)
    exact houtside hpid

/-- A full table is not handled: the search has no end, or the callers store
outside the table. -/
theorem Handled.slot (hhandled : Handled table) :
    ∃ pid < processCount, (table.processes pid).present = false := by
  by_contra hnone
  have hfull : Full table := by
    intro pid hpid
    by_contra hfree
    exact hnone ⟨pid, hpid, by simpa using hfree⟩
  by_cases hcurrent : table.currentPid < processCount
  · have hspawn := spawnNewProcess_none (threadRequest 0 0 0)
      (searchSlot_full hcurrent hfull)
    obtain ⟨next, hstart, -⟩ := hhandled.threadStart _ _ _ _ _ hspawn
    rw [threadStart_none hspawn] at hstart
    cases hstart
  · have hpresent := hhandled.current.resolve_left hcurrent
    have hlt := nextSlot_lt table.currentPid
    have hruns : ∀ rounds, searchSlot table rounds table.currentPid = none := by
      intro rounds
      cases rounds with
      | zero => rfl
      | succ rounds =>
          rw [searchSlot_skip hpresent (by omega)]
          exact searchSlot_runs (by omega) hfull hlt rounds
    obtain ⟨rounds, next, pid, hspawn, -, -⟩ := hhandled.spawn (threadRequest 0 0 0)
    simp [spawnNewProcess, hruns] at hspawn

theorem Handled.queue (hhandled : Handled table) :
    table.queueLength < processCount := by
  obtain ⟨rounds, next, pid, hspawn, hfull, -⟩ :=
    hhandled.spawn (threadRequest 0 0 0)
  rcases spawnNewProcess_cases hspawn with ⟨-, -, hpid⟩ | ⟨-, -, hqueue, -⟩
  · obtain ⟨free, hlt, hfree⟩ := hhandled.slot
    rw [hfull.mp hpid free hlt] at hfree
    cases hfree
  · exact hqueue

/-- The table is handled exactly while it has room. -/
theorem fullTable_handled_iff (table : Table) : Handled table ↔ HasRoom table :=
  ⟨fun hhandled => ⟨hhandled.slot, hhandled.current, hhandled.queue⟩,
    HasRoom.handled⟩

/-- A table whose processes are all blocked but for the idle one. -/
def crowdedTable : Table where
  processes pid := { zeroProcess with present := true, blocked := pid ≠ 0 }
  processQueue _ := 0
  activeProcesses := processCount
  currentPid := 0
  queueLength := 1
  currentQueueIndex := 0

theorem fullTable_stores_outside : ¬ Handled crowdedTable := by
  intro hhandled
  obtain ⟨pid, -, hfree⟩ := hhandled.slot
  cases hfree

end KimisOS.FullTable
