import KimisOS.Scheduler.Queue

/-!
# The run queue holds the runnable processes

Every present, non-blocked pid is to stand once in the run queue, with no
other pid beside it but the idle one.  Neither `remove_process_queue` nor
`add_process_queue` looks whether the pid is queued, so the invariant rests on
the calls: each removal must name a queued pid, each addition one that is not.
-/

namespace KimisOS.RunQueue

open KimisOS.Run
open KimisOS.Entries
open KimisOS.Scheduler

/-- The scheduler, and whether `schedule` has put the idle pid in the queue. -/
structure QueueState where
  sched : SchedState
  idleAdded : Bool

inductive Event where
  | spawn (esp pageDir : ℕ)
  | block (pid : ℕ)
  | unblock (pid : ℕ)
  | kill (pid : ℕ)
  | exit (exitCode esp : ℕ)
  | schedule (esp : ℕ)

def init (memory : ℕ → Process) : QueueState :=
  ⟨schedulerInit memory, false⟩

def step (state : QueueState) : Event → Option QueueState
  | .spawn esp pageDir =>
      (spawnNewProcess state.sched esp pageDir).map
        fun result => { state with sched := result.1 }
  | .block pid =>
      (setPidBlocked state.sched pid).map fun sched => { state with sched := sched }
  | .unblock pid =>
      (setPidUnblocked state.sched pid).map fun sched => { state with sched := sched }
  | .kill pid =>
      (Scheduler.kill state.sched pid).map fun sched => { state with sched := sched }
  | .exit exitCode esp =>
      (threadExit state.sched exitCode esp).map
        fun sched => { state with sched := sched }
  | .schedule esp =>
      (Scheduler.schedule state.sched esp).map fun sched =>
        { sched := sched
          idleAdded := state.idleAdded || state.sched.queueLength == 0 }

/-- A pid of the table whose slot is in use. -/
def Existing (sched : SchedState) (pid : ℕ) : Prop :=
  pid < processCount ∧ (sched.processes pid).present = true

/-- The calls name existing pids only. -/
def ExistingEvent (state : QueueState) : Event → Prop
  | .spawn _ _ => True
  | .block pid => Existing state.sched pid
  | .unblock pid => Existing state.sched pid
  | .kill pid => Existing state.sched pid
  | .exit _ _ => Existing state.sched state.sched.currentPid
  | .schedule _ => True

/-- What the queue operations take for granted: a pid that is removed is
queued, a pid that is added is not. -/
def Orderly (state : QueueState) : Event → Prop
  | .spawn _ _ => ∀ pid, freeSlot state.sched = some pid → pid ∉ state.sched.queue
  | .block pid => pid ∈ state.sched.queue
  | .unblock pid => pid ∉ state.sched.queue
  | .kill pid => pid ∈ state.sched.queue
  | .exit _ _ =>
      state.sched.currentPid ∈ state.sched.queue ∧
        (let parent := (state.sched.processes state.sched.currentPid).parent
         Existing state.sched parent ∧ parent ∉ state.sched.queue)
  | .schedule _ => True

def Admissible (state : QueueState) (event : Event) : Prop :=
  ExistingEvent state event ∧ Orderly state event

/-- The run queue holds each runnable pid once, and apart from them at most
the idle pid that `schedule` has added. -/
structure RunQueueOk (state : QueueState) : Prop where
  once : ∀ pid, pid < processCount → state.sched.Runnable pid →
    state.sched.queue.count pid = 1
  only : ∀ pid ∈ state.sched.queue, state.sched.Runnable pid ∨
    pid = 0 ∧ state.idleAdded = true
  bounded : state.sched.queueLength ≤ processCount

/-- The invariant behind it, for a scheduler whose queue may hold the idle pid
if `idle` is set. -/
structure QueueInv (idle : Bool) (sched : SchedState) : Prop where
  nodup : sched.queue.Nodup
  lt : ∀ pid ∈ sched.queue, pid < processCount
  covers : ∀ pid, pid < processCount → sched.Runnable pid → pid ∈ sched.queue
  only : ∀ pid ∈ sched.queue, sched.Runnable pid ∨ pid = 0 ∧ idle = true
  current : sched.currentPid < processCount

theorem length_le_of_nodup {queue : List ℕ} {bound : ℕ} (hnodup : queue.Nodup)
    (hlt : ∀ pid ∈ queue, pid < bound) : queue.length ≤ bound := by
  have hsub : queue ⊆ List.range bound := by
    intro pid hpid
    exact List.mem_range.mpr (hlt pid hpid)
  simpa using (hnodup.subperm hsub).length_le

theorem QueueInv.queueLength_le {idle : Bool} {sched : SchedState}
    (hinv : QueueInv idle sched) : sched.queueLength ≤ processCount := by
  have hle := length_le_of_nodup hinv.nodup hinv.lt
  rwa [SchedState.queue, length_entries] at hle

/-- A pid that is not queued leaves room for itself. -/
theorem QueueInv.queueLength_lt {idle : Bool} {sched : SchedState} {pid : ℕ}
    (hinv : QueueInv idle sched) (hpid : pid < processCount)
    (hnew : pid ∉ sched.queue) : sched.queueLength < processCount := by
  have hle : (pid :: sched.queue).length ≤ processCount := by
    apply length_le_of_nodup (List.nodup_cons.mpr ⟨hnew, hinv.nodup⟩)
    intro entry hentry
    rcases List.mem_cons.mp hentry with rfl | hentry
    · exact hpid
    · exact hinv.lt entry hentry
  rwa [List.length_cons, SchedState.queue, length_entries] at hle

theorem QueueInv.ok {state : QueueState}
    (hinv : QueueInv state.idleAdded state.sched) : RunQueueOk state where
  once pid hpid hrunnable :=
    List.count_eq_one_of_mem hinv.nodup (hinv.covers pid hpid hrunnable)
  only := hinv.only
  bounded := hinv.queueLength_le

theorem QueueInv.mono {idle : Bool} {sched : SchedState}
    (hinv : QueueInv idle sched) : QueueInv true sched where
  nodup := hinv.nodup
  lt := hinv.lt
  covers := hinv.covers
  only pid hpid := (hinv.only pid hpid).imp id fun hidle => ⟨hidle.1, rfl⟩
  current := hinv.current

theorem runnable_setProcess_of_ne {sched : SchedState} {pid other : ℕ}
    {process : Process} (hne : other ≠ pid) :
    (sched.setProcess pid process).Runnable other ↔ sched.Runnable other := by
  simp [SchedState.Runnable, SchedState.setProcess, hne]

@[simp]
theorem runnable_setProcess_self {sched : SchedState} {pid : ℕ}
    {process : Process} :
    (sched.setProcess pid process).Runnable pid ↔
      process.present = true ∧ process.blocked = false := by
  simp [SchedState.Runnable, SchedState.setProcess]

theorem runnable_congr {sched sched' : SchedState} (pid : ℕ)
    (hprocesses : sched'.processes = sched.processes) :
    sched'.Runnable pid ↔ sched.Runnable pid := by
  rw [SchedState.Runnable, SchedState.Runnable, hprocesses]

/-! ## Operations -/

/-- Stopping a queued process and taking it out of the queue. -/
theorem QueueInv.remove {idle : Bool} {sched : SchedState} {pid : ℕ}
    (hinv : QueueInv idle sched) (process : Process) (hpid : pid ∈ sched.queue)
    (hstopped : ¬(process.present = true ∧ process.blocked = false)) :
    ∃ removed, removeProcessQueue (sched.setProcess pid process) pid =
        some removed ∧
      QueueInv idle removed ∧
      sched.queue.Perm (pid :: removed.queue) ∧
      removed.processes = (sched.setProcess pid process).processes ∧
      removed.currentPid = sched.currentPid := by
  obtain ⟨removed, hremove, hperm, hprocesses, hcurrent⟩ :=
    removeProcessQueue_of_nodup (sched.setProcess pid process) pid
      hinv.queueLength_le hpid hinv.nodup
  rw [setProcess_queue] at hperm
  refine ⟨removed, hremove, ?_, hperm, hprocesses, hcurrent⟩
  have hnodup : (pid :: removed.queue).Nodup := hperm.nodup_iff.mp hinv.nodup
  have hgone : pid ∉ removed.queue := (List.nodup_cons.mp hnodup).1
  have hmem : ∀ entry ∈ removed.queue, entry ∈ sched.queue := by
    intro entry hentry
    exact hperm.mem_iff.mpr (List.mem_cons_of_mem pid hentry)
  have hother : ∀ entry, entry ≠ pid →
      (removed.Runnable entry ↔ sched.Runnable entry) := by
    intro entry hne
    rw [runnable_congr entry hprocesses, runnable_setProcess_of_ne hne]
  constructor
  · exact (List.nodup_cons.mp hnodup).2
  · intro entry hentry
    exact hinv.lt entry (hmem entry hentry)
  · intro entry hentry hrunnable
    by_cases hne : entry = pid
    · subst hne
      rw [runnable_congr entry hprocesses, runnable_setProcess_self] at hrunnable
      exact absurd hrunnable hstopped
    · have hqueued := hinv.covers entry hentry ((hother entry hne).mp hrunnable)
      exact (List.mem_cons.mp (hperm.mem_iff.mp hqueued)).resolve_left hne
  · intro entry hentry
    have hne : entry ≠ pid := by
      intro heq
      exact hgone (heq ▸ hentry)
    rw [hother entry hne]
    exact hinv.only entry (hmem entry hentry)
  · rw [hcurrent]
    exact hinv.current

/-- Starting a process that is not queued and appending it. -/
theorem QueueInv.add {idle : Bool} {sched : SchedState} {pid : ℕ}
    (hinv : QueueInv idle sched) (process : Process) (hpid : pid < processCount)
    (hnew : pid ∉ sched.queue)
    (hstarted : process.present = true ∧ process.blocked = false) :
    ∃ added, addProcessQueue (sched.setProcess pid process) pid = some added ∧
      QueueInv idle added ∧
      added.queue = sched.queue ++ [pid] := by
  obtain ⟨added, hadd, hqueue, hprocesses, hcurrent, -⟩ :=
    addProcessQueue_of_lt (sched.setProcess pid process) pid
      (hinv.queueLength_lt hpid hnew)
  rw [setProcess_queue] at hqueue
  refine ⟨added, hadd, ?_, hqueue⟩
  have hself : added.Runnable pid := by
    rw [runnable_congr pid hprocesses, runnable_setProcess_self]
    exact hstarted
  have hother : ∀ entry, entry ≠ pid →
      (added.Runnable entry ↔ sched.Runnable entry) := by
    intro entry hne
    rw [runnable_congr entry hprocesses, runnable_setProcess_of_ne hne]
  have hmem : ∀ entry, entry ∈ added.queue ↔ entry ∈ sched.queue ∨ entry = pid := by
    intro entry
    rw [hqueue, List.mem_append, List.mem_singleton]
  constructor
  · rw [hqueue, ← List.concat_eq_append]
    exact hinv.nodup.concat hnew
  · intro entry hentry
    rcases (hmem entry).mp hentry with hold | rfl
    · exact hinv.lt entry hold
    · exact hpid
  · intro entry hentry hrunnable
    by_cases hne : entry = pid
    · exact (hmem entry).mpr (.inr hne)
    · exact (hmem entry).mpr
        (.inl (hinv.covers entry hentry ((hother entry hne).mp hrunnable)))
  · intro entry hentry
    by_cases hne : entry = pid
    · subst hne
      exact .inl hself
    · rw [hother entry hne]
      exact hinv.only entry (((hmem entry).mp hentry).resolve_right hne)
  · rw [hcurrent]
    exact hinv.current

/-- `schedule` keeps the invariant, and may need the idle pid only on an empty
queue. -/
theorem QueueInv.schedule {idle : Bool} {sched : SchedState} (esp : ℕ)
    (hinv : QueueInv idle sched) (hidle : sched.queue = [] → idle = true) :
    ∃ next, Scheduler.schedule sched esp = some next ∧ QueueInv idle next := by
  obtain ⟨next, hnext, hqueue, hcurrent, hlength, hprocesses⟩ :=
    schedule_spec sched esp hinv.queueLength_le
  refine ⟨next, hnext, ?_⟩
  have hrunnable : ∀ pid, next.Runnable pid ↔ sched.Runnable pid := by
    intro pid
    rw [SchedState.Runnable, SchedState.Runnable, hprocesses pid]
  have hlt : ∀ pid ∈ next.queue, pid < processCount := by
    intro pid hpid
    rw [hqueue] at hpid
    split at hpid
    · rw [List.mem_singleton.mp hpid]
      decide
    · exact hinv.lt pid hpid
  constructor
  · rw [hqueue]
    split
    · exact List.nodup_singleton 0
    · exact hinv.nodup
  · exact hlt
  · intro pid hpid hrun
    have hqueued := hinv.covers pid hpid ((hrunnable pid).mp hrun)
    rw [hqueue, if_neg (List.ne_nil_of_mem hqueued)]
    exact hqueued
  · intro pid hpid
    rw [hrunnable]
    rw [hqueue] at hpid
    split at hpid
    case isTrue hempty =>
      exact .inr ⟨List.mem_singleton.mp hpid, hidle hempty⟩
    case isFalse => exact hinv.only pid hpid
  · exact hlt _ hcurrent

/-! ## Steps and runs -/

theorem step_spawn {idle : Bool} {sched : SchedState} (esp pageDir : ℕ)
    (hinv : QueueInv idle sched)
    (horderly : ∀ pid, freeSlot sched = some pid → pid ∉ sched.queue) :
    ∃ result, spawnNewProcess sched esp pageDir = some result ∧
      QueueInv idle result.1 := by
  unfold spawnNewProcess
  cases hslot : freeSlot sched with
  | none => exact ⟨_, rfl, hinv⟩
  | some pid =>
      have hpid : pid < processCount := (findSlot_spec hslot).1 hinv.current
      -- The invariant does not speak of the counter of active processes.
      have hcounted : QueueInv idle
          { sched with activeProcesses := sched.activeProcesses + 1 } :=
        ⟨hinv.nodup, hinv.lt, hinv.covers, hinv.only, hinv.current⟩
      obtain ⟨added, hadd, hnext, -⟩ := hcounted.add
        { present := true
          blocked := false
          system := (sched.processes sched.currentPid).system
          parent := sched.currentPid
          exitValue := 0
          pageDir := pageDir
          esp := esp } hpid (horderly pid hslot) ⟨rfl, rfl⟩
      refine ⟨(added, some pid), ?_, hnext⟩
      simp only [SchedState.setProcess] at hadd ⊢
      rw [hadd]

theorem step_exit {idle : Bool} {sched : SchedState} (exitCode esp : ℕ)
    (hinv : QueueInv idle sched) (hqueued : sched.currentPid ∈ sched.queue)
    (hparent : Existing sched (sched.processes sched.currentPid).parent)
    (hwaiting : (sched.processes sched.currentPid).parent ∉ sched.queue) :
    ∃ next, threadExit sched exitCode esp = some next ∧ QueueInv idle next := by
  obtain ⟨removed, hremove, hinv', hperm, hprocesses, hcurrent⟩ :=
    hinv.remove { sched.processes sched.currentPid with
      present := false, exitValue := exitCode } hqueued (by simp)
  have hne : (sched.processes sched.currentPid).parent ≠ sched.currentPid := by
    intro heq
    exact hwaiting (heq.symm ▸ hqueued)
  have hsame : (removed.processes sched.currentPid).parent =
      (sched.processes sched.currentPid).parent := by
    rw [hprocesses]
    simp [SchedState.setProcess]
  have hpresent : (removed.processes
      (sched.processes sched.currentPid).parent).present = true := by
    rw [hprocesses]
    simpa [SchedState.setProcess, hne] using hparent.2
  have hout : (sched.processes sched.currentPid).parent ∉ removed.queue := by
    intro hmem
    exact hwaiting (hperm.mem_iff.mpr (List.mem_cons_of_mem _ hmem))
  obtain ⟨woken, hwoken, hinv'', hqueue⟩ := hinv'.add
    { removed.processes (sched.processes sched.currentPid).parent with
      blocked := false } hparent.1 hout ⟨hpresent, rfl⟩
  obtain ⟨next, hnext, hfinal⟩ :=
    hinv''.schedule esp (fun hempty => by simp [hqueue] at hempty)
  refine ⟨next, ?_, hfinal⟩
  simp only [threadExit, markExited, wakeParent, hremove, hcurrent, hsame,
    setPidUnblocked, hwoken, hnext]

/-- Every admissible call has a result and keeps the invariant. -/
theorem step_inv {state : QueueState} {event : Event}
    (hinv : QueueInv state.idleAdded state.sched)
    (hadmissible : Admissible state event) :
    ∃ next, step state event = some next ∧
      QueueInv next.idleAdded next.sched := by
  obtain ⟨hexisting, horderly⟩ := hadmissible
  cases event with
  | spawn esp pageDir =>
      obtain ⟨result, hspawn, hnext⟩ := step_spawn esp pageDir hinv horderly
      exact ⟨{ state with sched := result.1 },
        by simp only [step, hspawn, Option.map_some], hnext⟩
  | block pid =>
      obtain ⟨removed, hremove, hnext, -⟩ := hinv.remove
        { state.sched.processes pid with blocked := true } horderly (by simp)
      exact ⟨{ state with sched := removed },
        by simp only [step, setPidBlocked, hremove, Option.map_some], hnext⟩
  | unblock pid =>
      obtain ⟨added, hadd, hnext, -⟩ := hinv.add
        { state.sched.processes pid with blocked := false }
        hexisting.1 horderly ⟨hexisting.2, rfl⟩
      exact ⟨{ state with sched := added },
        by simp only [step, setPidUnblocked, hadd, Option.map_some], hnext⟩
  | kill pid =>
      obtain ⟨removed, hremove, hnext, -⟩ := hinv.remove
        { state.sched.processes pid with present := false, pageDir := 0 }
        horderly (by simp)
      exact ⟨{ state with sched := removed },
        by simp only [step, Scheduler.kill, hremove, Option.map_some], hnext⟩
  | exit exitCode esp =>
      obtain ⟨next, hexit, hnext⟩ :=
        step_exit exitCode esp hinv horderly.1 horderly.2.1 horderly.2.2
      exact ⟨{ state with sched := next },
        by simp only [step, hexit, Option.map_some], hnext⟩
  | schedule esp =>
      have hidle : QueueInv
          (state.idleAdded || state.sched.queueLength == 0) state.sched := by
        cases hadded : state.idleAdded || state.sched.queueLength == 0 with
        | true => exact hinv.mono
        | false =>
            rw [(Bool.or_eq_false_iff.mp hadded).1] at hinv
            exact hinv
      obtain ⟨next, hnext, hfinal⟩ := hidle.schedule esp (by
        intro hempty
        have hzero : state.sched.queueLength = 0 := by
          rw [← length_entries state.sched.processQueue state.sched.queueLength]
          exact List.length_eq_zero_iff.mpr hempty
        simp [hzero])
      exact ⟨⟨next, state.idleAdded || state.sched.queueLength == 0⟩,
        by simp only [step, hnext, Option.map_some], hfinal⟩

theorem init_inv (memory : ℕ → Process) :
    QueueInv (init memory).idleAdded (init memory).sched := by
  constructor
  · simp [init, schedulerInit, SchedState.queue]
  · simp [init, schedulerInit, SchedState.queue]
  · intro pid hpid hrunnable
    simp [init, schedulerInit, SchedState.Runnable] at hrunnable
  · simp [init, schedulerInit, SchedState.queue]
  · simp [init, schedulerInit, processCount]

/-- In every run whose calls remove queued pids and add unqueued ones, every
call has a result and the run queue is right in every state reached. -/
theorem runQueue_ok (memory : ℕ → Process) (events : List Event)
    (hmeets : Meets step Admissible (init memory) events) :
    ∃ state, exec step (init memory) events = some state ∧ RunQueueOk state := by
  obtain ⟨state, hrun, hinv⟩ :=
    exec_total (fun _ _ hinv hok => step_inv hinv hok) (init_inv memory) hmeets
  exact ⟨state, hrun, hinv.ok⟩

/-- A cleared process table. -/
def clearedTable : ℕ → Process := fun _ => ⟨false, false, false, 0, 0, 0, 0⟩

/-- Two processes start, the second is blocked and woken again. -/
theorem runQueue_ok_block_unblock :
    ∃ state, exec step (init clearedTable)
        [.spawn 0 0, .spawn 0 0, .block 1, .unblock 1] = some state ∧
      RunQueueOk state := by
  apply runQueue_ok clearedTable
  refine ⟨⟨trivial, ?_⟩, ⟨trivial, ?_⟩, ⟨?_, ?_⟩, ⟨?_, ?_⟩, trivial⟩
  · intro pid _
    exact List.not_mem_nil
  · intro pid hslot
    obtain rfl : 1 = pid := Option.some.inj hslot
    decide
  · exact ⟨by decide, rfl⟩
  · change 1 ∈ [0, 1]
    decide
  · exact ⟨by decide, rfl⟩
  · change 1 ∉ [0]
    decide

/-- Killing a blocked process drops another entry of the queue: process 2 is
runnable and never scheduled again. -/
theorem runQueue_loses_runnable :
    ∃ state, exec step (init clearedTable)
        [.spawn 0 0, .spawn 0 0, .spawn 0 0, .block 1, .kill 1] = some state ∧
      Meets step ExistingEvent (init clearedTable)
        [.spawn 0 0, .spawn 0 0, .spawn 0 0, .block 1, .kill 1] ∧
      ¬ RunQueueOk state := by
  refine ⟨_, rfl, ?_, ?_⟩
  · exact ⟨trivial, trivial, trivial, ⟨by decide, rfl⟩, ⟨by decide, rfl⟩, trivial⟩
  · intro hok
    have hlost := hok.once 2 (by decide) ⟨rfl, rfl⟩
    revert hlost
    decide

end KimisOS.RunQueue
