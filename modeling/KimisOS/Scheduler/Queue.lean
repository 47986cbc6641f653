import KimisOS.Core.Run
import KimisOS.Core.Entries

/-!
# The process table and the run queue

The scheduler keeps `PROCESS_COUNT` process slots and an array of the pids
that may run.  `remove_process_queue` zeroes every match, always shortens the
queue by one and moves the last entry into the hole; `add_process_queue`
appends without looking.  A call that would leave the array, or loop without
end on an empty queue, has no result here.
-/

namespace KimisOS.Scheduler

open KimisOS.Run
open KimisOS.Entries

def processCount : ℕ := 0x10000

/-- The fields of `process_t` that the scheduler reads; `esp` is the stack
pointer of the saved registers. -/
structure Process where
  present : Bool
  blocked : Bool
  system : Bool
  parent : ℕ
  exitValue : ℕ
  pageDir : ℕ
  esp : ℕ
  deriving DecidableEq

structure SchedState where
  processes : ℕ → Process
  processQueue : ℕ → ℕ
  activeProcesses : ℕ
  currentPid : ℕ
  queueLength : ℕ
  currentQueueIndex : ℕ

/-- The pids in the run queue. -/
def SchedState.queue (sched : SchedState) : List ℕ :=
  entries sched.processQueue sched.queueLength

/-- A process that is present and not blocked. -/
def SchedState.Runnable (sched : SchedState) (pid : ℕ) : Prop :=
  (sched.processes pid).present = true ∧ (sched.processes pid).blocked = false

/-- Overwrite one process slot. -/
def SchedState.setProcess (sched : SchedState) (pid : ℕ) (process : Process) :
    SchedState :=
  { sched with processes := Function.update sched.processes pid process }

/-- `scheduler_init`: the slots come from `kmalloc` with arbitrary contents,
of which only the present bit is cleared. -/
def schedulerInit (memory : ℕ → Process) : SchedState where
  processes pid := { memory pid with present := false }
  processQueue _ := 0
  activeProcesses := 0
  currentPid := 0
  queueLength := 0
  currentQueueIndex := 0

/-! ## Queue operations -/

def addProcessQueue (sched : SchedState) (pid : ℕ) : Option SchedState :=
  if sched.queueLength < processCount then
    some { sched with
      processQueue := Function.update sched.processQueue sched.queueLength pid
      queueLength := sched.queueLength + 1 }
  else none

/-- The loop of `remove_process_queue` over the first entries: every match is
zeroed, and the index of the last one is kept, starting from `-1`. -/
def zeroMatches (queue : ℕ → ℕ) (pid : ℕ) : ℕ → (ℕ → ℕ) × ℕ
  | 0 => (queue, 2 ^ 32 - 1)
  | i + 1 =>
      let (zeroed, oldIndex) := zeroMatches queue pid i
      if zeroed i = pid then (Function.update zeroed i 0, i)
      else (zeroed, oldIndex)

/-- `remove_process_queue`.  On an empty queue `last_queue_index` is the
largest 32-bit number and the loop has no end. -/
def removeProcessQueue (sched : SchedState) (pid : ℕ) : Option SchedState :=
  if sched.queueLength = 0 then none
  else
    let lastQueueIndex := sched.queueLength - 1
    let (zeroed, oldIndex) := zeroMatches sched.processQueue pid sched.queueLength
    let queueLength := sched.queueLength - 1
    if oldIndex = lastQueueIndex ∨ oldIndex > queueLength ∨
        oldIndex > processCount then
      some { sched with processQueue := zeroed, queueLength := queueLength }
    else
      some { sched with
        processQueue := Function.update
          (Function.update zeroed oldIndex (zeroed lastQueueIndex))
          lastQueueIndex 0
        queueLength := queueLength
        currentQueueIndex := if sched.currentQueueIndex > 0 then
            sched.currentQueueIndex - 1
          else sched.currentQueueIndex }

/-! ## Processes -/

/-- The first lines of `schedule`: an empty queue gets the idle pid. -/
def addIdle (sched : SchedState) : Option SchedState :=
  if sched.queueLength = 0 then addProcessQueue sched 0 else some sched

/-- The next index of the queue, one further when it would run the idle pid
although there are others. -/
def nextQueueIndex (sched : SchedState) : ℕ :=
  let index := if sched.currentQueueIndex + 1 ≥ sched.queueLength then 0
    else sched.currentQueueIndex + 1
  if sched.queueLength > 1 ∧ sched.processQueue (index % sched.queueLength) = 0
  then index + 1
  else index

/-- `schedule`, called with the stack pointer of the interrupted process. -/
def schedule (sched : SchedState) (esp : ℕ) : Option SchedState :=
  match addIdle sched with
  | none => none
  | some sched =>
      let saved := sched.setProcess sched.currentPid
        { sched.processes sched.currentPid with esp := esp }
      some { saved with
        currentQueueIndex := nextQueueIndex sched
        currentPid := sched.processQueue
          (nextQueueIndex sched % sched.queueLength) }

/-- The search of `spawn_new_process` for a slot that is not present. -/
def findSlot (sched : SchedState) : ℕ → ℕ → Option ℕ
  | 0, _ => none
  | rounds + 1, i =>
      if (sched.processes i).present then
        let next := if i + 1 ≥ processCount then 0 else i + 1
        if next = sched.currentPid then none else findSlot sched rounds next
      else some i

def freeSlot (sched : SchedState) : Option ℕ :=
  findSlot sched processCount sched.currentPid

/-- `spawn_new_process`: the new state and the pid returned, `none` for
`-1`. -/
def spawnNewProcess (sched : SchedState) (esp pageDir : ℕ) :
    Option (SchedState × Option ℕ) :=
  match freeSlot sched with
  | none => some (sched, none)
  | some pid =>
      let spawned := sched.setProcess pid
        { present := true
          blocked := false
          system := (sched.processes sched.currentPid).system
          parent := sched.currentPid
          exitValue := 0
          pageDir := pageDir
          esp := esp }
      match addProcessQueue
          { spawned with activeProcesses := sched.activeProcesses + 1 } pid with
      | none => none
      | some queued => some (queued, some pid)

def setPidBlocked (sched : SchedState) (pid : ℕ) : Option SchedState :=
  removeProcessQueue
    (sched.setProcess pid { sched.processes pid with blocked := true }) pid

def setPidUnblocked (sched : SchedState) (pid : ℕ) : Option SchedState :=
  addProcessQueue
    (sched.setProcess pid { sched.processes pid with blocked := false }) pid

/-- What `kill` does to the process table and the queue, after it has given
back the frames of the process. -/
def kill (sched : SchedState) (pid : ℕ) : Option SchedState :=
  removeProcessQueue
    (sched.setProcess pid
      { sched.processes pid with present := false, pageDir := 0 }) pid

/-- What `thread_exit` does to the current process before it takes it out of the
queue. -/
def markExited (sched : SchedState) (exitCode : ℕ) : SchedState :=
  sched.setProcess sched.currentPid
    { sched.processes sched.currentPid with present := false, exitValue := exitCode }

/-- The rest of `thread_exit`, behind the removal, with the interrupt that runs the
scheduler. -/
def wakeParent (sched : SchedState) (esp : ℕ) : Option SchedState :=
  match setPidUnblocked sched (sched.processes sched.currentPid).parent with
  | none => none
  | some woken => schedule woken esp

/-- `thread_exit` of the current process, when nothing interrupts it. -/
def threadExit (sched : SchedState) (exitCode esp : ℕ) : Option SchedState :=
  match removeProcessQueue (markExited sched exitCode) sched.currentPid with
  | none => none
  | some removed => wakeParent removed esp

/-! ## What the queue operations do to the list of pids -/

@[simp]
theorem setProcess_queue (sched : SchedState) (pid : ℕ) (process : Process) :
    (sched.setProcess pid process).queue = sched.queue := rfl

theorem zeroMatches_fst (queue : ℕ → ℕ) (pid length i : ℕ) :
    (zeroMatches queue pid length).1 i =
      if i < length ∧ queue i = pid then 0 else queue i := by
  induction length with
  | zero => simp [zeroMatches]
  | succ length ih =>
      simp only [zeroMatches]
      by_cases hi : i = length
      · subst hi
        have hfresh : (zeroMatches queue pid i).1 i = queue i := by
          rw [ih, if_neg (by omega)]
        by_cases hmatch : queue i = pid
        · rw [if_pos (hfresh.trans hmatch), if_pos ⟨by omega, hmatch⟩]
          exact Function.update_self _ _ _
        · rw [if_neg (by rwa [hfresh]), hfresh, if_neg (by tauto)]
      · have hbound : i < length + 1 ↔ i < length := by omega
        simp only [hbound, ← ih]
        split
        · exact Function.update_of_ne hi _ _
        · rfl

/-- The index the loop keeps is that of a match, if there is one. -/
theorem zeroMatches_snd {queue : ℕ → ℕ} {pid length : ℕ}
    (hmem : pid ∈ entries queue length) :
    (zeroMatches queue pid length).2 < length ∧
      queue (zeroMatches queue pid length).2 = pid := by
  induction length with
  | zero => simp at hmem
  | succ length ih =>
      have hfresh : (zeroMatches queue pid length).1 length = queue length := by
        rw [zeroMatches_fst, if_neg (by omega)]
      simp only [zeroMatches, hfresh]
      by_cases hmatch : queue length = pid
      · rw [if_pos hmatch]
        exact ⟨by simp, hmatch⟩
      · rw [if_neg hmatch]
        have hearlier : pid ∈ entries queue length := by
          rw [entries_succ] at hmem
          rcases List.mem_append.mp hmem with hold | hlast
          · exact hold
          · exact absurd (List.mem_singleton.mp hlast).symm hmatch
        obtain ⟨hlt, hvalue⟩ := ih hearlier
        exact ⟨Nat.lt_succ_of_lt hlt, hvalue⟩

theorem entries_zeroMatches (queue : ℕ → ℕ) (pid length : ℕ) :
    entries (zeroMatches queue pid length).1 length =
      (entries queue length).map fun entry => if entry = pid then 0 else entry := by
  rw [entries_map]
  apply entries_congr
  intro i hi
  rw [zeroMatches_fst]
  simp [hi]

/-- Removing a queued pid turns its entries into zeros and drops one of
them. -/
theorem removeProcessQueue_of_mem (sched : SchedState) (pid : ℕ)
    (hlength : sched.queueLength ≤ processCount) (hmem : pid ∈ sched.queue) :
    ∃ removed, removeProcessQueue sched pid = some removed ∧
      (sched.queue.map fun entry => if entry = pid then 0 else entry).Perm
        (0 :: removed.queue) ∧
      removed.processes = sched.processes ∧
      removed.currentPid = sched.currentPid ∧
      removed.queueLength + 1 = sched.queueLength := by
  obtain ⟨hold, hvalue⟩ := zeroMatches_snd hmem
  obtain ⟨last, hlast⟩ : ∃ last, sched.queueLength = last + 1 :=
    ⟨sched.queueLength - 1, by omega⟩
  have hzeroed : (zeroMatches sched.processQueue pid sched.queueLength).1
      (zeroMatches sched.processQueue pid sched.queueLength).2 = 0 := by
    rw [zeroMatches_fst, if_pos ⟨hold, hvalue⟩]
  have hlist := entries_zeroMatches sched.processQueue pid sched.queueLength
  simp only [SchedState.queue, removeProcessQueue]
  rw [if_neg (by omega), ← hlist]
  generalize zeroMatches sched.processQueue pid sched.queueLength = scan at *
  obtain ⟨zeroed, oldIndex⟩ := scan
  simp only [hlast, Nat.add_sub_cancel] at hold hzeroed ⊢
  by_cases hend : oldIndex = last
  · subst hend
    rw [if_pos (.inl rfl)]
    refine ⟨_, rfl, ?_, rfl, rfl, rfl⟩
    rw [entries_succ, hzeroed]
    exact List.perm_append_singleton _ _
  · have hbelow : oldIndex < last := by omega
    rw [if_neg (by omega)]
    refine ⟨_, rfl, ?_, rfl, rfl, rfl⟩
    have hmoved : entries (Function.update
        (Function.update zeroed oldIndex (zeroed last)) last 0) last =
        entries (Function.update zeroed oldIndex (zeroed last)) last := by
      apply entries_congr
      intro i hi
      exact Function.update_of_ne (by omega) _ _
    have hperm := entries_perm_moveLast zeroed hbelow
    rw [hzeroed] at hperm
    simpa only [hmoved] using hperm

/-- Removing a pid that is queued once takes exactly that entry out. -/
theorem removeProcessQueue_of_nodup (sched : SchedState) (pid : ℕ)
    (hlength : sched.queueLength ≤ processCount) (hmem : pid ∈ sched.queue)
    (hnodup : sched.queue.Nodup) :
    ∃ removed, removeProcessQueue sched pid = some removed ∧
      sched.queue.Perm (pid :: removed.queue) ∧
      removed.processes = sched.processes ∧
      removed.currentPid = sched.currentPid := by
  obtain ⟨removed, hremove, hperm, hprocesses, hcurrent, -⟩ :=
    removeProcessQueue_of_mem sched pid hlength hmem
  refine ⟨removed, hremove, ?_, hprocesses, hcurrent⟩
  have hsplit := List.perm_cons_erase hmem
  have hgone : pid ∉ sched.queue.erase pid := hnodup.not_mem_erase
  have hkeep : (sched.queue.erase pid).map
      (fun entry => if entry = pid then 0 else entry) = sched.queue.erase pid := by
    have hsame : ∀ entry ∈ sched.queue.erase pid,
        (if entry = pid then 0 else entry) = id entry := by
      intro entry hentry
      have hother : entry ≠ pid := by
        intro heq
        exact hgone (heq ▸ hentry)
      rw [if_neg hother]
      rfl
    rw [List.map_congr_left hsame, List.map_id]
  have hmapped := hsplit.map fun entry => if entry = pid then 0 else entry
  rw [List.map_cons, if_pos rfl, hkeep] at hmapped
  have hrest : (sched.queue.erase pid).Perm removed.queue :=
    (hmapped.symm.trans hperm).cons_inv
  exact hsplit.trans (hrest.cons _)

theorem count_zeroed (queue : List ℕ) (pid entry : ℕ) :
    (queue.map fun old => if old = pid then 0 else old).count entry =
      (if entry = pid then 0 else queue.count entry) +
        (if entry = 0 then queue.count pid else 0) := by
  induction queue with
  | nil => simp
  | cons first rest ih =>
      rw [List.map_cons, List.count_cons, List.count_cons, List.count_cons, ih]
      simp only [beq_iff_eq]
      split_ifs <;> omega

/-- The entries left by the removal of a pid that may be queued more than
once: every further entry of it becomes one of the idle pid. -/
theorem removeProcessQueue_count (sched : SchedState) (pid : ℕ)
    (hlength : sched.queueLength ≤ processCount) (hmem : pid ∈ sched.queue) :
    ∃ removed, removeProcessQueue sched pid = some removed ∧
      (∀ entry, removed.queue.count entry + (if entry = 0 then 1 else 0) =
        (if entry = pid then 0 else sched.queue.count entry) +
          (if entry = 0 then sched.queue.count pid else 0)) ∧
      removed.processes = sched.processes ∧
      removed.currentPid = sched.currentPid ∧
      removed.queueLength + 1 = sched.queueLength := by
  obtain ⟨removed, hremove, hperm, hprocesses, hcurrent, hlen⟩ :=
    removeProcessQueue_of_mem sched pid hlength hmem
  refine ⟨removed, hremove, ?_, hprocesses, hcurrent, hlen⟩
  intro entry
  rw [← count_zeroed, hperm.count_eq, List.count_cons]
  by_cases hentry : entry = 0
  · simp [hentry]
  · simp [hentry, Ne.symm hentry]

theorem addProcessQueue_of_lt (sched : SchedState) (pid : ℕ)
    (hlength : sched.queueLength < processCount) :
    ∃ added, addProcessQueue sched pid = some added ∧
      added.queue = sched.queue ++ [pid] ∧
      added.processes = sched.processes ∧
      added.currentPid = sched.currentPid ∧
      added.queueLength = sched.queueLength + 1 := by
  rw [addProcessQueue, if_pos hlength]
  refine ⟨_, rfl, ?_, rfl, rfl, rfl⟩
  exact entries_update_self _ _ _

theorem addIdle_spec (sched : SchedState)
    (hlength : sched.queueLength ≤ processCount) :
    ∃ filled, addIdle sched = some filled ∧
      filled.queue = (if sched.queue = [] then [0] else sched.queue) ∧
      filled.processes = sched.processes ∧
      0 < filled.queueLength ∧ filled.queueLength ≤ processCount := by
  have hempty : sched.queue = [] ↔ sched.queueLength = 0 := by
    rw [← List.length_eq_zero_iff, SchedState.queue, length_entries]
  unfold addIdle
  by_cases hzero : sched.queueLength = 0
  · obtain ⟨added, hadd, hqueue, hprocesses, -, hlen⟩ :=
      addProcessQueue_of_lt sched 0 (by rw [hzero]; decide)
    refine ⟨added, by rw [if_pos hzero, hadd], ?_, hprocesses,
      by omega, by rw [hlen, hzero]; decide⟩
    rw [hqueue, if_pos (hempty.mpr hzero), hempty.mpr hzero]
    rfl
  · refine ⟨sched, if_neg hzero, ?_, rfl, by omega, hlength⟩
    rw [if_neg (mt hempty.mp hzero)]

/-- `schedule` gives an empty queue the idle pid, and then picks an entry of
the queue; of the processes it only changes saved registers. -/
theorem schedule_spec (sched : SchedState) (esp : ℕ)
    (hlength : sched.queueLength ≤ processCount) :
    ∃ next, schedule sched esp = some next ∧
      next.queue = (if sched.queue = [] then [0] else sched.queue) ∧
      next.currentPid ∈ next.queue ∧
      next.queueLength ≤ processCount ∧
      ∀ pid, next.processes pid =
        { sched.processes pid with esp := (next.processes pid).esp } := by
  obtain ⟨filled, hfilled, hqueue, hprocesses, hpositive, hbound⟩ :=
    addIdle_spec sched hlength
  simp only [schedule, hfilled]
  refine ⟨_, rfl, hqueue, ?_, hbound, ?_⟩
  · exact mem_entries.mpr ⟨_, Nat.mod_lt _ hpositive, rfl⟩
  · intro pid
    by_cases hpid : pid = filled.currentPid
    · subst hpid
      simp [SchedState.setProcess, hprocesses]
    · simp [SchedState.setProcess, hpid, hprocesses]

/-- The slot that is found is in the table and not in use. -/
theorem findSlot_spec {sched : SchedState} {rounds i pid : ℕ}
    (hslot : findSlot sched rounds i = some pid) :
    (i < processCount → pid < processCount) ∧
      (sched.processes pid).present = false := by
  induction rounds generalizing i with
  | zero => simp [findSlot] at hslot
  | succ rounds ih =>
      by_cases hpresent : (sched.processes i).present = true
      · have hnext : i < processCount →
            (if i + 1 ≥ processCount then 0 else i + 1) < processCount := by
          intro hi
          split
          · decide
          · omega
        generalize hnextEq : (if i + 1 ≥ processCount then 0 else i + 1) = next
          at hnext
        simp only [findSlot, hpresent, if_true, hnextEq] at hslot
        by_cases hround : next = sched.currentPid
        · simp [hround] at hslot
        · rw [if_neg hround] at hslot
          exact ⟨fun hi => (ih hslot).1 (hnext hi), (ih hslot).2⟩
      · rw [findSlot, if_neg hpresent] at hslot
        obtain rfl : i = pid := Option.some.inj hslot
        exact ⟨id, Bool.eq_false_iff.mpr hpresent⟩

/-! ## What the operations leave alone

Nothing is asked of the queue here: a removal or an append that has a result
moves entries and never touches a process. -/

theorem removeProcessQueue_keeps {sched removed : SchedState} {pid : ℕ}
    (hremove : removeProcessQueue sched pid = some removed) :
    removed.processes = sched.processes ∧
      removed.currentPid = sched.currentPid ∧
      removed.queueLength + 1 = sched.queueLength := by
  unfold removeProcessQueue at hremove
  by_cases hempty : sched.queueLength = 0
  · simp [hempty] at hremove
  · have hlength : sched.queueLength - 1 + 1 = sched.queueLength := by omega
    simp only [if_neg hempty] at hremove
    split at hremove
    all_goals
      obtain rfl := Option.some.inj hremove
      exact ⟨rfl, rfl, hlength⟩

theorem addProcessQueue_keeps {sched added : SchedState} {pid : ℕ}
    (hadd : addProcessQueue sched pid = some added) :
    added.processes = sched.processes ∧
      added.currentPid = sched.currentPid ∧
      added.queueLength = sched.queueLength + 1 ∧
      added.queue = sched.queue ++ [pid] := by
  unfold addProcessQueue at hadd
  split at hadd
  · obtain rfl := Option.some.inj hadd
    exact ⟨rfl, rfl, rfl, entries_update_self _ _ _⟩
  · cases hadd

/-- `schedule` changes no process but for its saved registers, and makes the
queue longer only when it is empty. -/
theorem schedule_keeps {sched next : SchedState} {esp : ℕ}
    (hschedule : schedule sched esp = some next) :
    (∀ pid, (next.processes pid).blocked = (sched.processes pid).blocked) ∧
      (next.queueLength = sched.queueLength ∨
        sched.queueLength = 0 ∧ next.queueLength = 1) := by
  have hfilled : ∃ filled, addIdle sched = some filled ∧
      filled.processes = sched.processes ∧
      (filled.queueLength = sched.queueLength ∨
        sched.queueLength = 0 ∧ filled.queueLength = 1) := by
    unfold addIdle
    by_cases hzero : sched.queueLength = 0
    · obtain ⟨added, hadd, -, hprocesses, -, hlen⟩ :=
        addProcessQueue_of_lt sched 0 (by rw [hzero]; decide)
      exact ⟨added, by rw [if_pos hzero, hadd], hprocesses,
        .inr ⟨hzero, by rw [hlen, hzero]⟩⟩
    · exact ⟨sched, if_neg hzero, rfl, .inl rfl⟩
  obtain ⟨filled, hidle, hprocesses, hlength⟩ := hfilled
  simp only [schedule, hidle] at hschedule
  obtain rfl := Option.some.inj hschedule
  refine ⟨?_, hlength⟩
  intro pid
  by_cases hpid : pid = filled.currentPid
  · subst hpid
    simp [SchedState.setProcess, hprocesses]
  · simp [SchedState.setProcess, hpid, hprocesses]

end KimisOS.Scheduler
