import KimisOS.Scheduler.Queue

/-!
# Joining threads

`thread_join` blocks its caller whether or not the thread still runs, and
`thread_exit` unblocks the parent whether or not it waits for this thread.  A
state records beside the scheduler which thread each process waits for and
with which code each thread has exited.
-/

namespace KimisOS.Join

open KimisOS.Run
open KimisOS.Entries
open KimisOS.Scheduler

/-- How far `thread_exit` has come: the process is marked as gone, or it is also out of
the queue. -/
inductive ExitStage where
  | marked
  | removed
  deriving DecidableEq

/-- `entering` is the thread of a process that is marked as blocked in `thread_join` and
not out of the queue yet, `joining` that of a process which is. -/
structure JoinState where
  sched : SchedState
  entering : ℕ → Option ℕ
  joining : ℕ → Option ℕ
  exitCode : ℕ → Option ℕ
  exiting : ℕ → Option ExitStage

/-- `thread_start`, which writes the parent of the new process once more.
Without a free slot it writes to the slot of pid `-1`. -/
def threadStart (sched : SchedState) (esp : ℕ) : Option (SchedState × ℕ) :=
  match spawnNewProcess sched esp 0x10000 with
  | none => none
  | some (_, none) => none
  | some (spawned, some pid) =>
      some (spawned.setProcess pid
        { spawned.processes pid with parent := spawned.currentPid }, pid)

/-- The first half of `set_pid_blocked`, as `thread_join` calls it. -/
def markBlocked (sched : SchedState) : SchedState :=
  sched.setProcess sched.currentPid
    { sched.processes sched.currentPid with blocked := true }

/-- The rest of `thread_join`, up to and including its interrupt. -/
def waitRemoved (sched : SchedState) (esp : ℕ) : Option SchedState :=
  match removeProcessQueue sched sched.currentPid with
  | none => none
  | some removed => schedule removed esp

/-- `thread_join` up to and including its interrupt, when nothing interrupts it. -/
def threadJoin (sched : SchedState) (esp : ℕ) : Option SchedState :=
  match setPidBlocked sched sched.currentPid with
  | none => none
  | some blocked => schedule blocked esp

theorem threadJoin_eq (sched : SchedState) (esp : ℕ) :
    threadJoin sched esp = waitRemoved (markBlocked sched) esp := rfl

inductive Event where
  | start (esp : ℕ)
  | join (threadId : ℕ)
  | joinRemove (esp : ℕ)
  | exit (exitCode : ℕ)
  | exitRemove
  | exitWake (esp : ℕ)
  | timer (esp : ℕ)
  | joinReturn

def init (memory : ℕ → Process) : JoinState :=
  ⟨schedulerInit memory, fun _ => none, fun _ => none, fun _ => none, fun _ => none⟩

/-- Calls of the current process and timer interrupts.  An interrupt can come between
the parts of `thread_join`: `join`, `joinRemove` and `joinReturn`, which reads the exit
value; and between those of `thread_exit`: `exit`, `exitRemove` and `exitWake`, behind
which the thread has exited. -/
def step (state : JoinState) : Event → Option JoinState
  | .start esp =>
      (threadStart state.sched esp).map fun result =>
        { state with
          sched := result.1
          exitCode := Function.update state.exitCode result.2 none }
  | .join threadId =>
      some { state with
        sched := markBlocked state.sched
        entering := Function.update state.entering state.sched.currentPid (some threadId) }
  | .joinRemove esp =>
      (waitRemoved state.sched esp).map fun sched =>
        { state with
          sched := sched
          entering := Function.update state.entering state.sched.currentPid none
          joining := Function.update state.joining state.sched.currentPid
            (state.entering state.sched.currentPid) }
  | .exit exitCode =>
      some { state with
        sched := markExited state.sched exitCode
        exiting := Function.update state.exiting state.sched.currentPid (some .marked) }
  | .exitRemove =>
      (removeProcessQueue state.sched state.sched.currentPid).map fun sched =>
        { state with
          sched := sched
          exiting := Function.update state.exiting state.sched.currentPid (some .removed) }
  | .exitWake esp =>
      (wakeParent state.sched esp).map fun sched =>
        { state with
          sched := sched
          exitCode := Function.update state.exitCode state.sched.currentPid
            (some (state.sched.processes state.sched.currentPid).exitValue)
          exiting := Function.update state.exiting state.sched.currentPid none }
  | .timer esp =>
      (schedule state.sched esp).map fun sched => { state with sched := sched }
  | .joinReturn =>
      some { state with
        joining := Function.update state.joining state.sched.currentPid none }

/-- The current process is inside neither of the two calls. -/
structure JoinState.Outside (state : JoinState) : Prop where
  entering : state.entering state.sched.currentPid = none
  joining : state.joining state.sched.currentPid = none
  exiting : state.exiting state.sched.currentPid = none

/-- What the current process can do: it calls nothing while it is inside
`thread_join` or `thread_exit`, and it joins a thread that it has started. -/
def Enabled (state : JoinState) : Event → Prop
  | .start _ => state.Outside
  | .join threadId =>
      (state.sched.processes state.sched.currentPid).present = true ∧ state.Outside ∧
        threadId ≠ state.sched.currentPid ∧
        (state.sched.processes threadId).parent = state.sched.currentPid
  | .joinRemove _ => state.entering state.sched.currentPid ≠ none
  | .exit _ =>
      (state.sched.processes state.sched.currentPid).present = true ∧ state.Outside
  | .exitRemove => state.exiting state.sched.currentPid = some .marked
  | .exitWake _ => state.exiting state.sched.currentPid = some .removed
  | .timer _ => True
  | .joinReturn => state.joining state.sched.currentPid ≠ none

/-- The idle process waits for a thread that still runs. -/
def IdleWaits (state : JoinState) : Prop :=
  ∃ threadId, state.joining 0 = some threadId ∧ state.exitCode threadId = none

/-- A process is out of the queue before the thread it joins has exited, a parent waits
for no other thread when it is woken, and the slot of a thread is not reused before it is
gone and the parent has read the exit value.  No timer interrupt comes between the removal
of an exiting thread and the end of its call.  While the idle process waits, a removal must
leave no idle entry in the queue, and not empty it. -/
def Orderly (state : JoinState) : Event → Prop
  | .start _ =>
      state.sched.queueLength < processCount ∧
        ∃ slot, freeSlot state.sched = some slot ∧ state.exiting slot = none ∧
          ∀ pid, state.entering pid ≠ some slot ∧ state.joining pid ≠ some slot
  | .join _ => True
  | .joinRemove _ =>
      (∀ threadId, state.entering state.sched.currentPid = some threadId →
          state.exitCode threadId = none) ∧
        (state.sched.currentPid = 0 ∨ IdleWaits state →
          state.sched.queue.count state.sched.currentPid = 1 ∧
            2 ≤ state.sched.queueLength)
  | .exit _ => True
  | .exitRemove => IdleWaits state → state.sched.queue.count state.sched.currentPid = 1
  | .exitWake _ =>
      ∀ other, state.joining
          (state.sched.processes state.sched.currentPid).parent = some other →
        other = state.sched.currentPid
  | .timer _ => state.exiting state.sched.currentPid ≠ some .removed
  | .joinReturn => True

def Admissible (state : JoinState) (event : Event) : Prop :=
  Enabled state event ∧ Orderly state event

/-- A process that waits for a thread is in the run queue only if the thread
has exited, and once it has exited the process is neither blocked nor off the
queue; a process that is back from the interrupt reads the exit value of the
thread it has waited for; and a thread inside `thread_exit` is queued or running, so
that it gets to the end of its call. -/
structure JoinOk (state : JoinState) : Prop where
  requeued : ∀ pid threadId, state.joining pid = some threadId →
    pid ∈ state.sched.queue → state.exitCode threadId ≠ none
  woken : ∀ pid threadId, state.joining pid = some threadId →
    state.exitCode threadId ≠ none →
      (state.sched.processes pid).blocked = false ∧ pid ∈ state.sched.queue
  reads : ∀ threadId,
    state.joining state.sched.currentPid = some threadId →
      state.exitCode threadId = some (state.sched.processes threadId).exitValue
  exits : ∀ pid, state.exiting pid ≠ none →
    pid ∈ state.sched.queue ∨ pid = state.sched.currentPid

/-! ## The invariant -/

/-- One process waits for one thread. -/
structure Waits (state : JoinState) (pid threadId : ℕ) : Prop where
  present : (state.sched.processes pid).present = true
  ne : threadId ≠ pid
  parent : (state.sched.processes threadId).parent = pid
  running : state.exitCode threadId = none → pid ∉ state.sched.queue
  exited : ∀ code, state.exitCode threadId = some code →
    (state.sched.processes threadId).exitValue = code ∧
      (state.sched.processes pid).blocked = false ∧ pid ∈ state.sched.queue

/-- One process is about to wait for a thread that it has started. -/
structure Enters (state : JoinState) (pid threadId : ℕ) : Prop where
  present : (state.sched.processes pid).present = true
  ne : threadId ≠ pid
  parent : (state.sched.processes threadId).parent = pid

theorem Enters.congr {state next : JoinState} {pid threadId : ℕ}
    (henters : Enters state pid threadId)
    (hpresent : (next.sched.processes pid).present = (state.sched.processes pid).present)
    (hparent : (next.sched.processes threadId).parent =
      (state.sched.processes threadId).parent) : Enters next pid threadId :=
  ⟨hpresent.trans henters.present, henters.ne, hparent.trans henters.parent⟩

/-- What holds between any two steps. -/
structure Base (state : JoinState) : Prop where
  enters : ∀ pid threadId, state.entering pid = some threadId →
    Enters state pid threadId
  waits : ∀ pid threadId, state.joining pid = some threadId →
    Waits state pid threadId
  length : state.sched.queueLength ≤ processCount
  runs : ∀ pid, (state.sched.processes pid).present = true ∨ state.exiting pid ≠ none →
    state.exitCode pid = none
  marked : ∀ pid, state.exiting pid ≠ none → (state.sched.processes pid).present = false
  queued : ∀ pid, state.exiting pid = some .marked → pid ∈ state.sched.queue

/-- What holds also between the parts of a call, while no process is off the queue
without having woken its parent. -/
structure WaitInv (state : JoinState) : Prop extends Base state where
  idle : IdleWaits state → state.sched.queue ≠ []
  settled : ∀ pid, state.exiting pid ≠ some .removed

structure JoinInv (state : JoinState) : Prop extends WaitInv state where
  current : (state.sched.processes state.sched.currentPid).present = true →
    state.sched.currentPid ∈ state.sched.queue

/-- The current process is off the queue and has yet to wake its parent. -/
structure Leaving (state : JoinState) : Prop extends Base state where
  leaves : state.exiting state.sched.currentPid = some .removed
  room : state.sched.queueLength < processCount
  others : ∀ pid, pid ≠ state.sched.currentPid → state.exiting pid ≠ some .removed

theorem Base.requeued {state : JoinState} (hbase : Base state) {pid threadId : ℕ}
    (hjoining : state.joining pid = some threadId) (hqueued : pid ∈ state.sched.queue) :
    state.exitCode threadId ≠ none := by
  intro hrunning
  exact (hbase.waits pid threadId hjoining).running hrunning hqueued

/-- A process that is there is not on its way out. -/
theorem Base.not_exiting {state : JoinState} (hbase : Base state) {pid : ℕ}
    (hpresent : (state.sched.processes pid).present = true) : state.exiting pid = none := by
  by_contra hexiting
  rw [hbase.marked pid hexiting] at hpresent
  cases hpresent

theorem Base.ok {state : JoinState} (hbase : Base state)
    (hcurrent : ∀ threadId, state.joining state.sched.currentPid = some threadId →
      state.sched.currentPid ∈ state.sched.queue)
    (hremoved : ∀ pid, state.exiting pid = some .removed → pid = state.sched.currentPid) :
    JoinOk state := by
  refine ⟨fun pid threadId => hbase.requeued, ?_, ?_, ?_⟩
  · intro pid threadId hjoining hexited
    obtain ⟨code, hcode⟩ := Option.ne_none_iff_exists'.mp hexited
    exact ((hbase.waits pid threadId hjoining).exited code hcode).2
  · intro threadId hjoining
    have hwaits := hbase.waits _ threadId hjoining
    have hexited := hbase.requeued hjoining (hcurrent threadId hjoining)
    obtain ⟨code, hcode⟩ := Option.ne_none_iff_exists'.mp hexited
    rw [hcode, (hwaits.exited code hcode).1]
  · intro pid hexiting
    obtain ⟨stage, hstage⟩ := Option.ne_none_iff_exists'.mp hexiting
    cases stage with
    | marked => exact .inl (hbase.queued pid hstage)
    | removed => exact .inr (hremoved pid hstage)

theorem JoinInv.ok {state : JoinState} (hinv : JoinInv state) : JoinOk state := by
  refine hinv.toBase.ok ?_ ?_
  · intro threadId hjoining
    exact hinv.current (hinv.waits _ threadId hjoining).present
  · intro pid hremoved
    exact absurd hremoved (hinv.settled pid)

theorem Leaving.ok {state : JoinState} (hleaving : Leaving state) : JoinOk state := by
  refine hleaving.toBase.ok ?_ ?_
  · intro threadId hjoining
    have hnone := hleaving.toBase.not_exiting (hleaving.waits _ threadId hjoining).present
    rw [hleaving.leaves] at hnone
    cases hnone
  · intro pid hremoved
    by_contra hpid
    exact hleaving.others pid hpid hremoved

/-- The scheduler at the end of a call restores the full invariant. -/
theorem WaitInv.schedule {state : JoinState} (esp : ℕ) (hinv : WaitInv state) :
    ∃ next, Scheduler.schedule state.sched esp = some next ∧
      JoinInv { state with sched := next } := by
  obtain ⟨next, hnext, hqueue, hcurrent, hlength, hprocesses⟩ :=
    schedule_spec state.sched esp hinv.length
  have hpresent : ∀ pid, (next.processes pid).present =
      (state.sched.processes pid).present := by
    intro pid
    rw [hprocesses]
  have hkept : ∀ pid ∈ state.sched.queue, pid ∈ next.queue := by
    intro pid hmem
    rw [hqueue, if_neg (List.ne_nil_of_mem hmem)]
    exact hmem
  refine ⟨next, hnext,
    ⟨⟨⟨?_, ?_, hlength, ?_, ?_, ?_⟩, ?_, hinv.settled⟩, fun _ => hcurrent⟩⟩
  · intro pid threadId hentering
    exact (hinv.enters pid threadId hentering).congr (hpresent pid) (by rw [hprocesses])
  · intro pid threadId hjoining
    have hwaits := hinv.waits pid threadId hjoining
    constructor
    · rw [hprocesses]
      exact hwaits.present
    · exact hwaits.ne
    · rw [hprocesses]
      exact hwaits.parent
    · intro hrunning hmem
      dsimp only at hmem
      rw [hqueue] at hmem
      split at hmem
      case isTrue hempty =>
        -- Only the idle pid is added, and not while it waits.
        obtain rfl : pid = 0 := List.mem_singleton.mp hmem
        exact hinv.idle ⟨threadId, hjoining, hrunning⟩ hempty
      case isFalse => exact hwaits.running hrunning hmem
    · intro code hcode
      obtain ⟨hvalue, hblocked, hqueued⟩ := hwaits.exited code hcode
      exact ⟨by rw [hprocesses]; exact hvalue, by rw [hprocesses]; exact hblocked,
        hkept pid hqueued⟩
  · intro pid hruns
    dsimp only at hruns
    rw [hpresent] at hruns
    exact hinv.runs pid hruns
  · intro pid hexiting
    exact (hpresent pid).trans (hinv.marked pid hexiting)
  · intro pid hmarked
    exact hkept pid (hinv.queued pid hmarked)
  · intro _
    exact List.ne_nil_of_mem hcurrent

/-! ## The queue after a removal -/

section Removal

variable {queue removed : List ℕ} {pid : ℕ}

/-- How `remove_process_queue` changes the number of entries of each pid. -/
def Removes (pid : ℕ) (queue removed : List ℕ) : Prop :=
  ∀ entry, removed.count entry + (if entry = 0 then 1 else 0) =
    (if entry = pid then 0 else queue.count entry) +
      (if entry = 0 then queue.count pid else 0)

theorem Removes.not_mem_self (hremoves : Removes pid queue removed)
    (honce : pid = 0 → queue.count pid = 1) : pid ∉ removed := by
  have hcount := hremoves pid
  rw [← List.count_eq_zero]
  by_cases hzero : pid = 0
  · rw [if_pos hzero, if_pos rfl, if_pos hzero, honce hzero] at hcount
    omega
  · simpa [hzero] using hcount

theorem Removes.not_mem_of_ne {other : ℕ} (hremoves : Removes pid queue removed)
    (hne : other ≠ pid) (hother : other ∉ queue)
    (honce : other = 0 → queue.count pid = 1) : other ∉ removed := by
  have hcount := hremoves other
  rw [← List.count_eq_zero] at hother ⊢
  by_cases hzero : other = 0
  · rw [if_pos hzero, if_neg hne, if_pos hzero, honce hzero] at hcount
    omega
  · rw [if_neg hzero, if_neg hne, if_neg hzero] at hcount
    omega

theorem Removes.mem_of_ne {other : ℕ} (hremoves : Removes pid queue removed)
    (hne : other ≠ pid) (hpid : pid ∈ queue) (hother : other ∈ queue) :
    other ∈ removed := by
  have hcount := hremoves other
  rw [← List.count_pos_iff] at hpid hother ⊢
  rw [if_neg hne] at hcount
  split at hcount <;> omega

end Removal

/-! ## Steps -/

/-- The current process is marked as blocked, and still in the queue. -/
theorem inv_join {state : JoinState} {threadId : ℕ} (hinv : JoinInv state)
    (henabled : Enabled state (.join threadId)) :
    ∃ next, step state (.join threadId) = some next ∧ JoinInv next := by
  obtain ⟨hpresent, houtside, hthread, hparent⟩ := henabled
  have hfields : ∀ pid, ((markBlocked state.sched).processes pid).present =
        (state.sched.processes pid).present ∧
      ((markBlocked state.sched).processes pid).parent =
        (state.sched.processes pid).parent ∧
      ((markBlocked state.sched).processes pid).exitValue =
        (state.sched.processes pid).exitValue := by
    intro pid
    by_cases hpid : pid = state.sched.currentPid
    · simp [markBlocked, SchedState.setProcess, hpid]
    · simp [markBlocked, SchedState.setProcess, hpid]
  refine ⟨_, rfl, ⟨⟨⟨?_, ?_, hinv.length, ?_, ?_, hinv.queued⟩, hinv.idle, hinv.settled⟩,
    fun _ => hinv.current hpresent⟩⟩
  · intro pid other hentering
    by_cases hpid : pid = state.sched.currentPid
    · subst hpid
      obtain rfl : threadId = other := by simpa using hentering
      exact ⟨(hfields _).1.trans hpresent, hthread, (hfields _).2.1.trans hparent⟩
    · dsimp only at hentering
      rw [Function.update_of_ne hpid] at hentering
      exact (hinv.enters pid other hentering).congr (hfields pid).1 (hfields other).2.1
  · intro pid other hjoining
    have hwaits := hinv.waits pid other hjoining
    have hpid : pid ≠ state.sched.currentPid := by
      rintro rfl
      cases houtside.joining.symm.trans hjoining
    refine ⟨(hfields pid).1.trans hwaits.present, hwaits.ne,
      (hfields other).2.1.trans hwaits.parent, hwaits.running, ?_⟩
    intro code hcode
    obtain ⟨hvalue, hunblocked, hmem⟩ := hwaits.exited code hcode
    refine ⟨(hfields other).2.2.trans hvalue, ?_, hmem⟩
    simpa [markBlocked, SchedState.setProcess, hpid] using hunblocked
  · intro pid hruns
    dsimp only at hruns
    rw [(hfields pid).1] at hruns
    exact hinv.runs pid hruns
  · intro pid hexiting
    exact (hfields pid).1.trans (hinv.marked pid hexiting)

/-- The current process, once it is out of the queue, waits for its thread. -/
theorem inv_joinRemove {state : JoinState} (esp : ℕ) (hinv : JoinInv state)
    (henabled : Enabled state (.joinRemove esp))
    (horderly : Orderly state (.joinRemove esp)) :
    ∃ next, step state (.joinRemove esp) = some next ∧ JoinInv next := by
  obtain ⟨threadId, hentering⟩ := Option.ne_none_iff_exists'.mp henabled
  obtain ⟨hpresent, hthread, hparent⟩ := hinv.enters _ threadId hentering
  obtain ⟨hrunning, honce⟩ := horderly
  have hcode := hrunning threadId hentering
  have hstays := hinv.toBase.not_exiting hpresent
  have hqueued := hinv.current hpresent
  obtain ⟨removed, hremove, hremoves, hprocesses, -, hlen⟩ :=
    removeProcessQueue_count state.sched state.sched.currentPid hinv.length hqueued
  change Removes _ state.sched.queue removed.queue at hremoves
  generalize hcurrent : state.sched.currentPid = current at *
  have hwaiting : WaitInv
      { state with
        sched := removed
        entering := Function.update state.entering current none
        joining := Function.update state.joining current (some threadId) } := by
    refine ⟨⟨?_, ?_, ?_, ?_, ?_, ?_⟩, ?_, hinv.settled⟩
    · intro pid other henters
      have hpid : pid ≠ current := by
        rintro rfl
        simp at henters
      dsimp only at henters
      rw [Function.update_of_ne hpid] at henters
      exact (hinv.enters pid other henters).congr (by rw [hprocesses]) (by rw [hprocesses])
    · intro pid other hjoining
      by_cases hpid : pid = current
      · subst hpid
        obtain rfl : threadId = other := by simpa using hjoining
        refine ⟨by rw [hprocesses]; exact hpresent, hthread,
          by rw [hprocesses]; exact hparent, ?_, ?_⟩
        · intro _
          exact hremoves.not_mem_self fun hzero => (honce (.inl hzero)).1
        · intro code hexited
          cases hcode.symm.trans hexited
      · have hold : state.joining pid = some other := by
          simpa [hpid] using hjoining
        have hwaits := hinv.waits pid other hold
        refine ⟨by rw [hprocesses]; exact hwaits.present, hwaits.ne,
          by rw [hprocesses]; exact hwaits.parent, ?_, ?_⟩
        · intro hother
          apply hremoves.not_mem_of_ne hpid (hwaits.running hother)
          intro hzero
          exact (honce (.inr ⟨other, hzero ▸ hold, hother⟩)).1
        · intro code hexited
          obtain ⟨hvalue, hunblocked, hmem⟩ := hwaits.exited code hexited
          dsimp only
          rw [hprocesses]
          exact ⟨hvalue, hunblocked, hremoves.mem_of_ne hpid hqueued hmem⟩
    · have hle := hinv.length
      dsimp only
      omega
    · intro pid hruns
      dsimp only at hruns
      rw [hprocesses] at hruns
      exact hinv.runs pid hruns
    · intro pid hexiting
      dsimp only
      rw [hprocesses]
      exact hinv.marked pid hexiting
    · intro pid hmarked
      have hpid : pid ≠ current := by
        rintro rfl
        cases hstays.symm.trans hmarked
      exact hremoves.mem_of_ne hpid hqueued (hinv.queued pid hmarked)
    · rintro ⟨other, hjoining, hother⟩ hempty
      have hroom : 2 ≤ state.sched.queueLength := by
        by_cases hzero : current = 0
        · exact (honce (.inl hzero)).2
        · refine (honce (.inr ⟨other, ?_, hother⟩)).2
          simpa [Ne.symm hzero] using hjoining
      have hzero : removed.queueLength = 0 := by
        rw [← length_entries removed.processQueue removed.queueLength]
        exact List.length_eq_zero_iff.mpr hempty
      omega
  obtain ⟨next, hnext, hfinal⟩ := hwaiting.schedule esp
  refine ⟨_, ?_, hfinal⟩
  dsimp only at hnext
  simp only [step, waitRemoved, hcurrent, hremove, hnext, hentering, Option.map_some]

/-- The current process is marked, and still in the queue. -/
theorem inv_exit {state : JoinState} {exitCode : ℕ} (hinv : JoinInv state)
    (henabled : Enabled state (.exit exitCode)) :
    ∃ next, step state (.exit exitCode) = some next ∧ JoinInv next := by
  obtain ⟨hpresent, houtside⟩ := henabled
  have hqueued := hinv.current hpresent
  have hrunning := hinv.runs state.sched.currentPid (.inl hpresent)
  have hother : ∀ pid, pid ≠ state.sched.currentPid →
      (markExited state.sched exitCode).processes pid = state.sched.processes pid := by
    intro pid hpid
    simp [markExited, SchedState.setProcess, hpid]
  have hparents : ∀ pid, ((markExited state.sched exitCode).processes pid).parent =
      (state.sched.processes pid).parent := by
    intro pid
    by_cases hpid : pid = state.sched.currentPid
    · simp [markExited, SchedState.setProcess, hpid]
    · rw [hother pid hpid]
  refine ⟨_, rfl, ⟨⟨⟨?_, ?_, hinv.length, ?_, ?_, ?_⟩, hinv.idle, ?_⟩, fun _ => hqueued⟩⟩
  · intro pid threadId hentering
    have hpid : pid ≠ state.sched.currentPid := by
      rintro rfl
      cases houtside.entering.symm.trans hentering
    exact (hinv.enters pid threadId hentering).congr (by rw [hother pid hpid])
      (hparents threadId)
  · intro pid threadId hjoining
    have hwaits := hinv.waits pid threadId hjoining
    have hpid : pid ≠ state.sched.currentPid := by
      rintro rfl
      cases houtside.joining.symm.trans hjoining
    refine ⟨?_, hwaits.ne, (hparents threadId).trans hwaits.parent, hwaits.running, ?_⟩
    · dsimp only
      rw [hother pid hpid]
      exact hwaits.present
    · intro code hcode
      have hthread : threadId ≠ state.sched.currentPid := by
        rintro rfl
        cases hrunning.symm.trans hcode
      dsimp only
      rw [hother pid hpid, hother threadId hthread]
      exact hwaits.exited code hcode
  · intro pid hruns
    by_cases hpid : pid = state.sched.currentPid
    · rw [hpid]
      exact hrunning
    · dsimp only at hruns
      rw [hother pid hpid, Function.update_of_ne hpid] at hruns
      exact hinv.runs pid hruns
  · intro pid hexiting
    by_cases hpid : pid = state.sched.currentPid
    · simp [markExited, SchedState.setProcess, hpid]
    · dsimp only at hexiting ⊢
      rw [Function.update_of_ne hpid] at hexiting
      rw [hother pid hpid]
      exact hinv.marked pid hexiting
  · intro pid hmarked
    by_cases hpid : pid = state.sched.currentPid
    · rw [hpid]
      exact hqueued
    · dsimp only at hmarked
      rw [Function.update_of_ne hpid] at hmarked
      exact hinv.queued pid hmarked
  · intro pid
    by_cases hpid : pid = state.sched.currentPid
    · simp [hpid]
    · dsimp only
      rw [Function.update_of_ne hpid]
      exact hinv.settled pid

/-- The current process leaves the queue. -/
theorem inv_exitRemove {state : JoinState} (hinv : JoinInv state)
    (henabled : Enabled state .exitRemove) (horderly : Orderly state .exitRemove) :
    ∃ next, step state .exitRemove = some next ∧ Leaving next := by
  have hmarked : state.exiting state.sched.currentPid = some .marked := henabled
  have hqueued := hinv.queued _ hmarked
  have habsent := hinv.marked state.sched.currentPid (by rw [hmarked]; simp)
  obtain ⟨removed, hremove, hremoves, hprocesses, hcurrent, hlen⟩ :=
    removeProcessQueue_count state.sched state.sched.currentPid hinv.length hqueued
  change Removes _ state.sched.queue removed.queue at hremoves
  have hle := hinv.length
  refine ⟨_, by rw [step, hremove, Option.map_some],
    ⟨⟨?_, ?_, ?_, ?_, ?_, ?_⟩, ?_, ?_, ?_⟩⟩
  · intro pid threadId hentering
    exact (hinv.enters pid threadId hentering).congr (by rw [hprocesses]) (by rw [hprocesses])
  · intro pid threadId hjoining
    have hwaits := hinv.waits pid threadId hjoining
    have hpid : pid ≠ state.sched.currentPid := by
      rintro rfl
      cases habsent.symm.trans hwaits.present
    refine ⟨by rw [hprocesses]; exact hwaits.present, hwaits.ne,
      by rw [hprocesses]; exact hwaits.parent, ?_, ?_⟩
    · intro hrunning
      refine hremoves.not_mem_of_ne hpid (hwaits.running hrunning) ?_
      rintro rfl
      exact horderly ⟨threadId, hjoining, hrunning⟩
    · intro code hcode
      obtain ⟨hvalue, hunblocked, hmem⟩ := hwaits.exited code hcode
      dsimp only
      rw [hprocesses]
      exact ⟨hvalue, hunblocked, hremoves.mem_of_ne hpid hqueued hmem⟩
  · dsimp only
    omega
  · intro pid hruns
    dsimp only at hruns
    rw [hprocesses] at hruns
    by_cases hpid : pid = state.sched.currentPid
    · rw [hpid]
      exact hinv.runs _ (.inr (by rw [hmarked]; simp))
    · rw [Function.update_of_ne hpid] at hruns
      exact hinv.runs pid hruns
  · intro pid hexiting
    dsimp only at hexiting ⊢
    rw [hprocesses]
    by_cases hpid : pid = state.sched.currentPid
    · rw [hpid]
      exact habsent
    · rw [Function.update_of_ne hpid] at hexiting
      exact hinv.marked pid hexiting
  · intro pid hqueues
    by_cases hpid : pid = state.sched.currentPid
    · simp [hpid] at hqueues
    · dsimp only at hqueues
      rw [Function.update_of_ne hpid] at hqueues
      exact hremoves.mem_of_ne hpid hqueued (hinv.queued pid hqueues)
  · dsimp only
    rw [hcurrent, Function.update_self]
  · dsimp only
    omega
  · intro pid hpid
    dsimp only at hpid ⊢
    rw [hcurrent] at hpid
    rw [Function.update_of_ne hpid]
    exact hinv.settled pid

/-- The parent, which waits for this thread or for none, is unblocked and stands at the
end of the queue. -/
structure Woken (sched woken : SchedState) : Prop where
  queue : woken.queue = sched.queue ++ [(sched.processes sched.currentPid).parent]
  length : woken.queueLength ≤ processCount
  processes : ∀ pid, woken.processes pid =
    { sched.processes pid with
      blocked := if pid = (sched.processes sched.currentPid).parent then false
        else (sched.processes pid).blocked }

theorem wakeParent_spec (sched : SchedState) (esp : ℕ) (hroom : sched.queueLength < processCount) :
    ∃ woken, Woken sched woken ∧ wakeParent sched esp = schedule woken esp := by
  obtain ⟨woken, hwoken, hqueue, hprocesses, -, hlen⟩ :=
    addProcessQueue_of_lt (sched.setProcess (sched.processes sched.currentPid).parent
      { sched.processes (sched.processes sched.currentPid).parent with
        blocked := false })
      (sched.processes sched.currentPid).parent hroom
  change _ = sched.queueLength + 1 at hlen
  refine ⟨woken, ⟨hqueue, by omega, ?_⟩, ?_⟩
  · intro pid
    generalize (sched.processes sched.currentPid).parent = parent at hprocesses ⊢
    rw [hprocesses]
    by_cases hpid : pid = parent
    · simp [SchedState.setProcess, hpid]
    · simp [SchedState.setProcess, hpid]
  · simp only [wakeParent, setPidUnblocked, hwoken]

/-- The current process wakes its parent and is gone. -/
theorem inv_exitWake {state : JoinState} (esp : ℕ) (hleaving : Leaving state)
    (horderly : Orderly state (.exitWake esp)) :
    ∃ next, step state (.exitWake esp) = some next ∧ JoinInv next := by
  have hawaited : ∀ other, state.joining
      (state.sched.processes state.sched.currentPid).parent = some other →
        other = state.sched.currentPid := horderly
  have hexiting : state.exiting state.sched.currentPid ≠ none := by
    rw [hleaving.leaves]
    exact Option.some_ne_none _
  have habsent := hleaving.marked _ hexiting
  obtain ⟨woken, hwoken, hwakes⟩ := wakeParent_spec state.sched esp hleaving.room
  have hpresent : ∀ pid, (woken.processes pid).present =
      (state.sched.processes pid).present := by
    intro pid
    rw [hwoken.processes]
  have hwaiting : WaitInv
      { state with
        sched := woken
        exitCode := Function.update state.exitCode state.sched.currentPid
          (some (state.sched.processes state.sched.currentPid).exitValue)
        exiting := Function.update state.exiting state.sched.currentPid none } := by
    refine ⟨⟨?_, ?_, hwoken.length, ?_, ?_, ?_⟩, ?_, ?_⟩
    · intro pid threadId hentering
      exact (hleaving.enters pid threadId hentering).congr (hpresent pid)
        (by rw [hwoken.processes])
    · intro pid threadId hjoining
      have hwaits := hleaving.waits pid threadId hjoining
      refine ⟨(hpresent pid).trans hwaits.present, hwaits.ne, ?_, ?_, ?_⟩
      · dsimp only
        rw [hwoken.processes]
        exact hwaits.parent
      · intro hcode hmem
        have hother : threadId ≠ state.sched.currentPid := by
          rintro rfl
          simp at hcode
        have hrunning : state.exitCode threadId = none := by
          simpa [hother] using hcode
        dsimp only at hmem
        rw [hwoken.queue, List.mem_append, List.mem_singleton] at hmem
        rcases hmem with hmem | rfl
        · exact hwaits.running hrunning hmem
        · exact hother (hawaited threadId hjoining)
      · intro code hcode
        dsimp only
        rw [hwoken.queue, List.mem_append, List.mem_singleton, hwoken.processes,
          hwoken.processes]
        by_cases hother : threadId = state.sched.currentPid
        · have hcode' : (state.sched.processes threadId).exitValue = code := by
            simpa [hother] using hcode
          have hparent : pid = (state.sched.processes state.sched.currentPid).parent := by
            rw [← hother]
            exact hwaits.parent.symm
          exact ⟨hcode', if_pos hparent, .inr hparent⟩
        · have hexited : state.exitCode threadId = some code := by
            simpa [hother] using hcode
          obtain ⟨hvalue, hunblocked, hmem⟩ := hwaits.exited code hexited
          exact ⟨hvalue, by dsimp only; rw [hunblocked, ite_self], .inl hmem⟩
    · intro pid hruns
      dsimp only at hruns
      rw [hpresent] at hruns
      by_cases hpid : pid = state.sched.currentPid
      · rw [hpid, habsent, Function.update_self] at hruns
        simp at hruns
      · rw [Function.update_of_ne hpid] at hruns
        dsimp only
        rw [Function.update_of_ne hpid]
        exact hleaving.runs pid hruns
    · intro pid hexiting'
      by_cases hpid : pid = state.sched.currentPid
      · rw [hpid]
        exact (hpresent _).trans habsent
      · dsimp only at hexiting'
        rw [Function.update_of_ne hpid] at hexiting'
        exact (hpresent pid).trans (hleaving.marked pid hexiting')
    · intro pid hmarked
      by_cases hpid : pid = state.sched.currentPid
      · simp [hpid] at hmarked
      · dsimp only at hmarked ⊢
        rw [Function.update_of_ne hpid] at hmarked
        rw [hwoken.queue]
        exact List.mem_append_left _ (hleaving.queued pid hmarked)
    · intro _
      dsimp only
      rw [hwoken.queue]
      exact List.append_ne_nil_of_right_ne_nil _ (List.cons_ne_nil _ _)
    · intro pid
      by_cases hpid : pid = state.sched.currentPid
      · simp [hpid]
      · dsimp only
        rw [Function.update_of_ne hpid]
        exact hleaving.others pid hpid
  obtain ⟨next, hnext, hfinal⟩ := hwaiting.schedule esp
  refine ⟨_, ?_, hfinal⟩
  dsimp only at hnext
  simp only [step, hwakes, hnext, Option.map_some]

/-- A new thread takes a slot that nobody waits for. -/
theorem inv_start {state : JoinState} (esp : ℕ) (hinv : JoinInv state)
    (horderly : Orderly state (.start esp)) :
    ∃ next, step state (.start esp) = some next ∧ JoinInv next := by
  obtain ⟨hroom, slot, hslot, hgone, hunawaited⟩ := horderly
  have habsent := (findSlot_spec hslot).2
  obtain ⟨added, hadd, hqueue, hprocesses, hcurrent, hlen⟩ :=
    addProcessQueue_of_lt
      { state.sched.setProcess slot
          { present := true
            blocked := false
            system := (state.sched.processes state.sched.currentPid).system
            parent := state.sched.currentPid
            exitValue := 0
            pageDir := 0x10000
            esp := esp } with
        activeProcesses := state.sched.activeProcesses + 1 } slot hroom
  change _ = state.sched.queue ++ [slot] at hqueue
  change _ = state.sched.queueLength + 1 at hlen
  change _ = state.sched.currentPid at hcurrent
  have hsame : ∀ pid, pid ≠ slot →
      (added.setProcess slot { added.processes slot with
        parent := added.currentPid }).processes pid =
        state.sched.processes pid := by
    intro pid hpid
    simp [SchedState.setProcess, hprocesses, hpid]
  have hfree : ∀ {pid}, (state.sched.processes pid).present = true → pid ≠ slot := by
    rintro pid hpresent rfl
    cases habsent.symm.trans hpresent
  refine ⟨{ state with
      sched := added.setProcess slot
        { added.processes slot with parent := added.currentPid }
      exitCode := Function.update state.exitCode slot none }, ?_,
    ⟨⟨⟨?_, ?_, ?_, ?_, ?_, ?_⟩, ?_, hinv.settled⟩, ?_⟩⟩
  · simp only [step, threadStart, spawnNewProcess, hslot, hadd, Option.map_some]
  · intro pid threadId hentering
    have henters := hinv.enters pid threadId hentering
    have hthread : threadId ≠ slot := by
      rintro rfl
      exact (hunawaited pid).1 hentering
    exact henters.congr (by rw [hsame pid (hfree henters.present)]) (by rw [hsame _ hthread])
  · intro pid threadId hjoining
    have hwaits := hinv.waits pid threadId hjoining
    have hpid := hfree hwaits.present
    have hthread : threadId ≠ slot := by
      rintro rfl
      exact (hunawaited pid).2 hjoining
    constructor
    · rw [hsame pid hpid]
      exact hwaits.present
    · exact hwaits.ne
    · rw [hsame threadId hthread]
      exact hwaits.parent
    · intro hcode
      have hrunning : state.exitCode threadId = none := by
        simpa [hthread] using hcode
      simp [hqueue, hpid, hwaits.running hrunning]
    · intro code hcode
      have hexited : state.exitCode threadId = some code := by
        simpa [hthread] using hcode
      rw [hsame pid hpid, hsame threadId hthread, setProcess_queue, hqueue]
      obtain ⟨hvalue, hunblocked, hmem⟩ := hwaits.exited code hexited
      exact ⟨hvalue, hunblocked, List.mem_append_left _ hmem⟩
  · change added.queueLength ≤ processCount
    omega
  · intro pid hruns
    dsimp only at hruns ⊢
    by_cases hpid : pid = slot
    · rw [hpid, Function.update_self]
    · rw [hsame pid hpid] at hruns
      rw [Function.update_of_ne hpid]
      exact hinv.runs pid hruns
  · intro pid hexiting
    have hpid : pid ≠ slot := by
      rintro rfl
      exact hexiting hgone
    dsimp only
    rw [hsame pid hpid]
    exact hinv.marked pid hexiting
  · intro pid hmarked
    dsimp only
    rw [setProcess_queue, hqueue]
    exact List.mem_append_left _ (hinv.queued pid hmarked)
  · intro _
    simp [hqueue]
  · intro hpresent
    change added.currentPid ∈ added.queue
    rw [hcurrent, hqueue]
    by_cases hself : state.sched.currentPid = slot
    · simp [hself]
    · apply List.mem_append_left
      apply hinv.current
      rw [← hsame _ hself, ← hcurrent]
      exact hpresent

theorem inv_joinReturn {state : JoinState} (hinv : JoinInv state) :
    JoinInv { state with
      joining := Function.update state.joining state.sched.currentPid none } := by
  have hjoining : ∀ pid threadId,
      Function.update state.joining state.sched.currentPid none pid =
        some threadId → state.joining pid = some threadId := by
    intro pid threadId hupdated
    by_cases hpid : pid = state.sched.currentPid
    · simp [hpid] at hupdated
    · simpa [hpid] using hupdated
  refine ⟨⟨⟨?_, ?_, hinv.length, hinv.runs, hinv.marked, hinv.queued⟩, ?_, hinv.settled⟩,
    hinv.current⟩
  · intro pid threadId hentering
    exact (hinv.enters pid threadId hentering).congr rfl rfl
  · intro pid threadId hupdated
    have hwaits := hinv.waits pid threadId (hjoining pid threadId hupdated)
    exact ⟨hwaits.present, hwaits.ne, hwaits.parent, hwaits.running, hwaits.exited⟩
  · rintro ⟨threadId, hupdated, hcode⟩
    exact hinv.idle ⟨threadId, hjoining 0 threadId hupdated, hcode⟩

theorem inv_init (memory : ℕ → Process) : JoinInv (init memory) := by
  refine ⟨⟨⟨?_, ?_, Nat.zero_le _, fun _ _ => rfl, ?_, ?_⟩, ?_, ?_⟩, ?_⟩
  · intro pid threadId hentering
    cases hentering
  · intro pid threadId hjoining
    cases hjoining
  · intro pid hexiting
    exact absurd rfl hexiting
  · intro pid hmarked
    cases hmarked
  · rintro ⟨threadId, hjoining, -⟩
    cases hjoining
  · intro pid hexiting
    cases hexiting
  · intro hpresent
    cases hpresent

/-- Every admissible step of a process that is in the queue has a result. -/
theorem JoinInv.step {state : JoinState} {event : Event} (hinv : JoinInv state)
    (hadmissible : Admissible state event) :
    ∃ next, Join.step state event = some next ∧ (JoinInv next ∨ Leaving next) := by
  obtain ⟨henabled, horderly⟩ := hadmissible
  have hkept : ∀ {result : Option JoinState}, (∃ next, result = some next ∧ JoinInv next) →
      ∃ next, result = some next ∧ (JoinInv next ∨ Leaving next) :=
    fun ⟨next, hnext, hfinal⟩ => ⟨next, hnext, .inl hfinal⟩
  cases event with
  | start esp => exact hkept (inv_start esp hinv horderly)
  | join threadId => exact hkept (inv_join hinv henabled)
  | joinRemove esp => exact hkept (inv_joinRemove esp hinv henabled horderly)
  | exit exitCode => exact hkept (inv_exit hinv henabled)
  | exitRemove =>
      obtain ⟨next, hnext, hleaving⟩ := inv_exitRemove hinv henabled horderly
      exact ⟨next, hnext, .inr hleaving⟩
  | exitWake esp => exact absurd henabled (hinv.settled _)
  | timer esp =>
      obtain ⟨next, hnext, hfinal⟩ := hinv.toWaitInv.schedule esp
      refine ⟨{ state with sched := next }, ?_, .inl hfinal⟩
      simp only [Join.step, hnext, Option.map_some]
  | joinReturn => exact hkept ⟨_, rfl, inv_joinReturn hinv⟩

/-- A process that has left the queue can only wake its parent. -/
theorem Leaving.step {state : JoinState} {event : Event} (hleaving : Leaving state)
    (hadmissible : Admissible state event) :
    ∃ next, Join.step state event = some next ∧ JoinInv next := by
  obtain ⟨henabled, horderly⟩ := hadmissible
  have hleaves := hleaving.leaves
  have hnever : ∀ {stage}, state.exiting state.sched.currentPid = stage →
      stage ≠ some .removed → False := by
    rintro _ rfl hstage
    exact hstage hleaves
  cases event with
  | start esp => exact (hnever henabled.exiting (by simp)).elim
  | join threadId => exact (hnever henabled.2.1.exiting (by simp)).elim
  | joinRemove esp =>
      obtain ⟨threadId, hentering⟩ := Option.ne_none_iff_exists'.mp henabled
      have hpresent := (hleaving.enters _ threadId hentering).present
      exact (hnever (hleaving.toBase.not_exiting hpresent) (by simp)).elim
  | exit exitCode => exact (hnever henabled.2.exiting (by simp)).elim
  | exitRemove => exact (hnever henabled (by simp)).elim
  | exitWake esp => exact inv_exitWake esp hleaving horderly
  | timer esp => exact absurd hleaves horderly
  | joinReturn =>
      obtain ⟨threadId, hjoining⟩ := Option.ne_none_iff_exists'.mp henabled
      have hpresent := (hleaving.waits _ threadId hjoining).present
      exact (hnever (hleaving.toBase.not_exiting hpresent) (by simp)).elim

/-- Every admissible step has a result and keeps the invariant. -/
theorem inv_step {state : JoinState} {event : Event} (hinv : JoinInv state ∨ Leaving state)
    (hadmissible : Admissible state event) :
    ∃ next, step state event = some next ∧ (JoinInv next ∨ Leaving next) := by
  rcases hinv with hinv | hleaving
  · exact hinv.step hadmissible
  · obtain ⟨next, hnext, hfinal⟩ := hleaving.step hadmissible
    exact ⟨next, hnext, .inl hfinal⟩

/-- Join and exit agree.  In every run whose calls are in order, every call has
a result, and in every state reached a process that waits in `thread_join` is
queued exactly if its thread has exited, with the exit value of that thread. -/
theorem join_exit_agree (memory : ℕ → Process) (events : List Event)
    (hmeets : Meets step Admissible (init memory) events) :
    ∃ state, exec step (init memory) events = some state ∧ JoinOk state := by
  obtain ⟨state, hrun, hinv⟩ :=
    exec_total (fun _ _ hinv hok => inv_step hinv hok) (.inl (inv_init memory)) hmeets
  exact ⟨state, hrun, hinv.elim JoinInv.ok Leaving.ok⟩

/-- A process table without processes. -/
def emptyTable : ℕ → Process := fun _ => ⟨false, false, false, 0, 0, 0, 0⟩

/-- Process 1 starts thread 2 and joins it, with a round of the queue before it is out of
the queue; the thread exits, with a timer interrupt before it leaves the queue, and process
1 reads its code. -/
theorem join_exit_agree_one_thread :
    ∃ state, exec step (init emptyTable)
        [.start 0, .start 0, .timer 0, .start 0, .join 2, .timer 0, .timer 0, .joinRemove 0,
          .exit 7, .timer 0, .exitRemove, .exitWake 0, .joinReturn] =
          some state ∧ JoinOk state := by
  apply join_exit_agree emptyTable
  refine ⟨⟨⟨rfl, rfl, rfl⟩, by decide, 0, rfl, rfl, ?_⟩,
    ⟨⟨rfl, rfl, rfl⟩, by decide, 1, rfl, rfl, ?_⟩,
    ⟨trivial, fun hremoved => by cases hremoved⟩,
    ⟨⟨rfl, rfl, rfl⟩, by decide, 2, rfl, rfl, ?_⟩,
    ⟨⟨rfl, ⟨rfl, rfl, rfl⟩, by decide, rfl⟩, trivial⟩,
    ⟨trivial, fun hremoved => by cases hremoved⟩,
    ⟨trivial, fun hremoved => by cases hremoved⟩, ⟨?_, ?_, ?_⟩,
    ⟨⟨rfl, rfl, rfl, rfl⟩, trivial⟩,
    ⟨trivial, fun hremoved => by cases hremoved⟩, ⟨rfl, ?_⟩, ⟨rfl, ?_⟩,
    ⟨?_, trivial⟩, trivial⟩
  · intro pid
    constructor <;> exact fun hawaits => by cases hawaits
  · intro pid
    constructor <;> exact fun hawaits => by cases hawaits
  · intro pid
    constructor <;> exact fun hawaits => by cases hawaits
  · exact Option.some_ne_none 2
  · intro threadId hentering
    have hthread : 2 = threadId := Option.some.inj hentering
    subst hthread
    rfl
  · rintro (hzero | ⟨threadId, hjoining, -⟩)
    · cases hzero
    · cases hjoining
  · rintro ⟨threadId, hjoining, -⟩
    cases hjoining
  · intro other hjoining
    exact (Option.some.inj hjoining).symm
  · exact Option.some_ne_none 2

/-- Process 1 joins thread 2.  The exit of its sibling 3 puts process 1 back in the
queue; a timer interrupt behind the removal of thread 2 leaves nobody to wake it; and one
before its own removal lets thread 2 wake it too early. -/
theorem join_woken_by_sibling :
    (∃ state, exec step (init emptyTable)
        [.start 0, .start 0, .timer 0, .start 0, .start 0, .join 2, .joinRemove 0, .exit 7,
          .exitRemove, .exitWake 0] = some state ∧
      Meets step Enabled (init emptyTable)
        [.start 0, .start 0, .timer 0, .start 0, .start 0, .join 2, .joinRemove 0, .exit 7,
          .exitRemove, .exitWake 0] ∧
      ¬ JoinOk state) ∧
    (∃ state, exec step (init emptyTable)
        [.start 0, .start 0, .timer 0, .start 0, .join 2, .joinRemove 0, .exit 7,
          .exitRemove, .timer 0] = some state ∧
      Meets step Enabled (init emptyTable)
        [.start 0, .start 0, .timer 0, .start 0, .join 2, .joinRemove 0, .exit 7,
          .exitRemove, .timer 0] ∧
      ¬ JoinOk state) ∧
    ∃ state, exec step (init emptyTable)
        [.start 0, .start 0, .timer 0, .start 0, .join 2, .timer 0, .exit 7, .exitRemove,
          .exitWake 0, .joinRemove 0] = some state ∧
      Meets step Enabled (init emptyTable)
        [.start 0, .start 0, .timer 0, .start 0, .join 2, .timer 0, .exit 7, .exitRemove,
          .exitWake 0, .joinRemove 0] ∧
      ¬ JoinOk state := by
  refine ⟨⟨_, rfl, ?_, ?_⟩, ⟨_, rfl, ?_, ?_⟩, _, rfl, ?_, ?_⟩
  · exact ⟨⟨rfl, rfl, rfl⟩, ⟨rfl, rfl, rfl⟩, trivial, ⟨rfl, rfl, rfl⟩, ⟨rfl, rfl, rfl⟩,
      ⟨rfl, ⟨rfl, rfl, rfl⟩, by decide, rfl⟩, Option.some_ne_none 2,
      ⟨rfl, rfl, rfl, rfl⟩, rfl, rfl, trivial⟩
  · intro hok
    have hqueued : 1 ∈ [0, 2, 1] := by decide
    exact hok.requeued 1 2 rfl hqueued rfl
  · exact ⟨⟨rfl, rfl, rfl⟩, ⟨rfl, rfl, rfl⟩, trivial, ⟨rfl, rfl, rfl⟩,
      ⟨rfl, ⟨rfl, rfl, rfl⟩, by decide, rfl⟩, Option.some_ne_none 2,
      ⟨rfl, rfl, rfl, rfl⟩, rfl, trivial, trivial⟩
  · intro hok
    rcases hok.exits 2 (Option.some_ne_none _) with hqueued | hruns
    · exact absurd (show 2 ∈ [0] from hqueued) (by decide)
    · exact absurd (show 2 = 0 from hruns) (by decide)
  · exact ⟨⟨rfl, rfl, rfl⟩, ⟨rfl, rfl, rfl⟩, trivial, ⟨rfl, rfl, rfl⟩,
      ⟨rfl, ⟨rfl, rfl, rfl⟩, by decide, rfl⟩, trivial, ⟨rfl, rfl, rfl, rfl⟩, rfl, rfl,
      Option.some_ne_none 2, trivial⟩
  · intro hok
    obtain ⟨-, hqueued⟩ := hok.woken 1 2 rfl (Option.some_ne_none 7)
    exact absurd (show 1 ∈ [0, 0] from hqueued) (by decide)

end KimisOS.Join
