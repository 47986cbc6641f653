import KimisOS.Scheduler.Queue

/-!
# The lock of the run queue

Threads take `proc_lock` around their changes of the run queue, and so do the
handlers of the timer and of the drive.  A handler runs with interrupts masked
on the stack of the thread it has interrupted.  When that thread holds the lock,
the handler spins for ever.
-/

namespace KimisOS.Scheduler.Lock

open KimisOS.Run

/-! ## Threads and handlers -/

/-- The calls with a section between `spinlock_acquire` and
`spinlock_release`. -/
inductive LockCall where
  | add (pid : ℕ)
  | remove (pid : ℕ)
  | spawn (esp pageDir : ℕ)

/-- Where a thread is in such a call. -/
inductive Place where
  | outside
  | acquiring (call : LockCall)
  | holding (call : LockCall)
  | releasing

/-- A thread, with the interrupt flag of its `eflags`. -/
structure Thread where
  place : Place
  interrupts : Bool

/-- A handler at the acquire of its `add_process_queue`: `int_handler` for the
process that waits for the drive, or `schedule` for the idle process. -/
inductive Handler where
  | unblock (pid esp : ℕ)
  | idle (esp : ℕ)

/-- `lock` is the process that holds `proc_lock`; `transferring` is
`transferring_pid` while `transferring_disk_index` is not `-1`. -/
structure Machine where
  sched : SchedState
  threads : ℕ → Thread
  lock : Option ℕ
  handler : Option Handler
  transferring : Option ℕ

def Machine.current (machine : Machine) : Thread := machine.threads machine.sched.currentPid

def Machine.setCurrent (machine : Machine) (thread : Thread) : Machine :=
  { machine with threads :=
      Function.update machine.threads machine.sched.currentPid thread }

def init (memory : ℕ → Process) (interrupts : ℕ → Bool) : Machine where
  sched := schedulerInit memory
  threads pid := ⟨.outside, interrupts pid⟩
  lock := none
  handler := none
  transferring := none

/-! ## Steps -/

/-- `schedule` as a handler calls it, up to the acquire of `add_process_queue`
when the queue is empty. -/
def runSchedule (machine : Machine) (esp : ℕ) : Option Machine :=
  if machine.sched.queueLength = 0 then some { machine with handler := some (.idle esp) }
  else
    match schedule machine.sched esp with
    | none => none
    | some sched => some { machine with sched := sched, handler := none }

/-- `int_handler`, with the interrupt bit of the bus master status, and then
`schedule`: `_irq_handler` calls it after every other handler. -/
def intHandler (machine : Machine) (interruptBit : Bool) (esp : ℕ) : Option Machine :=
  match machine.transferring, interruptBit with
  | some pid, true =>
      some { machine with
        sched := machine.sched.setProcess pid
          { machine.sched.processes pid with blocked := false }
        handler := some (.unblock pid esp) }
  | _, _ => runSchedule machine esp

/-- One test of the lock by the handler.  Once it has the lock nothing
interrupts it until the lock is released. -/
def spin (machine : Machine) : Option Machine :=
  match machine.handler, machine.lock with
  | none, _ => none
  | some _, some _ => some machine
  | some (.idle esp), none =>
      match addProcessQueue machine.sched 0 with
      | none => none
      | some sched => runSchedule { machine with sched := sched, handler := none } esp
  | some (.unblock pid esp), none =>
      match addProcessQueue machine.sched pid with
      | none => none
      | some sched =>
          runSchedule { machine with sched := sched, handler := none, transferring := none } esp

/-- What the current thread does while it holds the lock.  A new thread starts
with interrupts enabled; one in the slot of the current thread is lost, as the
next switch saves the registers of the current thread there. -/
def lockedSection (machine : Machine) : LockCall → Option Machine
  | .add pid =>
      match addProcessQueue machine.sched pid with
      | none => none
      | some sched => some { machine with sched := sched }
  | .remove pid =>
      match removeProcessQueue machine.sched pid with
      | none => none
      | some sched => some { machine with sched := sched }
  | .spawn esp pageDir =>
      match spawnNewProcess machine.sched esp pageDir with
      | none => none
      | some (sched, none) => some { machine with sched := sched }
      | some (sched, some pid) =>
          some { machine with
            sched := sched
            threads := fun other =>
              if other = pid ∧ other ≠ machine.sched.currentPid then ⟨.outside, true⟩
              else machine.threads other }

/-- A step of the current thread, of the hardware, or of the handler. -/
inductive LockEvent where
  | cli
  | sti
  | call (call : LockCall)
  | acquire
  | body
  | release
  | startTransfer
  | yield (esp : ℕ)
  | timer (esp : ℕ)
  | drive (interruptBit : Bool) (esp : ℕ)
  | spin

/-- A thread runs when no handler does, and an interrupt comes when moreover the
thread has not masked it.  The sections contain neither `cli` nor `sti`. -/
def step (machine : Machine) (event : LockEvent) : Option Machine :=
  match machine.handler with
  | some _ =>
      match event with
      | .spin => spin machine
      | _ => none
  | none =>
      let thread := machine.current
      match event, thread.place with
      | .cli, .outside => some (machine.setCurrent { thread with interrupts := false })
      | .sti, .outside => some (machine.setCurrent { thread with interrupts := true })
      | .call call, .outside => some (machine.setCurrent { thread with place := .acquiring call })
      | .acquire, .acquiring call =>
          if machine.lock = none then
            some ({ machine with lock := some machine.sched.currentPid }.setCurrent
              { thread with place := .holding call })
          else some machine
      | .body, .holding call =>
          lockedSection (machine.setCurrent { thread with place := .releasing }) call
      | .release, .releasing =>
          some ({ machine with lock := none }.setCurrent { thread with place := .outside })
      | .startTransfer, .outside =>
          some { machine with transferring := some machine.sched.currentPid }
      | .yield esp, .outside => runSchedule machine esp
      | .timer esp, _ => if thread.interrupts then runSchedule machine esp else none
      | .drive interruptBit esp, _ =>
          if thread.interrupts then intHandler machine interruptBit esp else none
      | _, _ => none

/-! ## The law and its condition -/

/-- A handler spins on the lock that the thread it has interrupted holds. -/
def SelfDeadlock (machine : Machine) : Prop :=
  machine.handler.isSome ∧ machine.lock = some machine.sched.currentPid

/-- The handler of the interrupt takes the lock: the drive has completed a
transfer, or there is nothing in the run queue. -/
def TakesLock (machine : Machine) : LockEvent → Prop
  | .timer _ => machine.sched.queueLength = 0
  | .drive interruptBit _ =>
      (machine.transferring.isSome ∧ interruptBit = true) ∨ machine.sched.queueLength = 0
  | _ => False

/-- No interrupt whose handler takes the lock comes while the current thread
holds it. -/
def Harmless (machine : Machine) (event : LockEvent) : Prop :=
  machine.lock = some machine.sched.currentPid → ¬ TakesLock machine event

/-- The callers of the three functions mask interrupts before. -/
def Masked (machine : Machine) : LockEvent → Prop
  | .call _ => machine.current.interrupts = false
  | _ => True

/-! ## One step -/

def Place.HasLock : Place → Prop
  | .outside => False
  | .acquiring _ => False
  | .holding _ => True
  | .releasing => True

/-- The lock is held by the thread that is between its acquire and its
release. -/
def Owned (machine : Machine) : Prop :=
  ∀ pid, machine.lock = some pid ↔ (machine.threads pid).place.HasLock

theorem owned_init (memory : ℕ → Process) (interrupts : ℕ → Bool) :
    Owned (init memory interrupts) := by
  intro pid
  simp [init, Place.HasLock]

/-- Switching threads touches neither the lock nor the places of threads. -/
theorem runSchedule_eq_some {machine next : Machine} {esp : ℕ}
    (hrun : runSchedule machine esp = some next) :
    next.lock = machine.lock ∧ next.threads = machine.threads ∧
      ((machine.sched.queueLength = 0 ∧ next.handler.isSome ∧ next.sched = machine.sched) ∨
        (machine.sched.queueLength ≠ 0 ∧ next.handler = none)) := by
  unfold runSchedule at hrun
  split at hrun
  next hempty =>
    obtain rfl := Option.some.inj hrun
    exact ⟨rfl, rfl, Or.inl ⟨hempty, rfl, rfl⟩⟩
  next hqueue =>
    split at hrun
    next => simp at hrun
    next =>
      obtain rfl := Option.some.inj hrun
      exact ⟨rfl, rfl, Or.inr ⟨hqueue, rfl⟩⟩

theorem spin_eq_some {machine next : Machine} (hspin : spin machine = some next) :
    next = machine ∨ (machine.lock = none ∧ next.lock = none ∧ next.threads = machine.threads) := by
  unfold spin at hspin
  split at hspin
  next => simp at hspin
  next =>
    exact Or.inl (Option.some.inj hspin).symm
  next esp _ hlock =>
    split at hspin
    next => simp at hspin
    next sched _ =>
      obtain ⟨hlock', hthreads, -⟩ := runSchedule_eq_some hspin
      exact Or.inr ⟨hlock, hlock'.trans hlock, hthreads⟩
  next pid esp _ hlock =>
    split at hspin
    next => simp at hspin
    next sched _ =>
      obtain ⟨hlock', hthreads, -⟩ := runSchedule_eq_some hspin
      exact Or.inr ⟨hlock, hlock'.trans hlock, hthreads⟩

theorem spawnNewProcess_currentPid {sched spawned : SchedState} {esp pageDir : ℕ}
    {pid : Option ℕ} (hspawn : spawnNewProcess sched esp pageDir = some (spawned, pid)) :
    spawned.currentPid = sched.currentPid := by
  unfold spawnNewProcess at hspawn
  split at hspawn
  next =>
    obtain ⟨rfl, -⟩ := Prod.mk.inj (Option.some.inj hspawn)
    rfl
  next =>
    simp only at hspawn
    split at hspawn
    next => simp at hspawn
    next queued hadd =>
      obtain ⟨rfl, -⟩ := Prod.mk.inj (Option.some.inj hspawn)
      exact (addProcessQueue_keeps hadd).2.1

/-- A section may start another thread, and leaves the lock alone. -/
theorem lockedSection_eq_some {machine next : Machine} {call : LockCall}
    (hsection : lockedSection machine call = some next) :
    next.lock = machine.lock ∧ next.handler = machine.handler ∧
      next.sched.currentPid = machine.sched.currentPid ∧
      ∀ pid, next.threads pid = machine.threads pid ∨
        (pid ≠ machine.sched.currentPid ∧ next.threads pid = ⟨.outside, true⟩) := by
  cases call with
  | add pid =>
      simp only [lockedSection] at hsection
      split at hsection
      next => simp at hsection
      next sched hadd =>
        obtain rfl := Option.some.inj hsection
        exact ⟨rfl, rfl, (addProcessQueue_keeps hadd).2.1, fun _ => Or.inl rfl⟩
  | remove pid =>
      simp only [lockedSection] at hsection
      split at hsection
      next => simp at hsection
      next sched hremove =>
        obtain rfl := Option.some.inj hsection
        exact ⟨rfl, rfl, (removeProcessQueue_keeps hremove).2.1, fun _ => Or.inl rfl⟩
  | spawn esp pageDir =>
      simp only [lockedSection] at hsection
      split at hsection
      next => simp at hsection
      next sched hspawn =>
        obtain rfl := Option.some.inj hsection
        exact ⟨rfl, rfl, spawnNewProcess_currentPid hspawn, fun _ => Or.inl rfl⟩
      next sched started hspawn =>
        obtain rfl := Option.some.inj hsection
        refine ⟨rfl, rfl, spawnNewProcess_currentPid hspawn, ?_⟩
        intro pid
        by_cases hpid : pid = started ∧ pid ≠ machine.sched.currentPid
        · exact Or.inr ⟨hpid.2, if_pos hpid⟩
        · exact Or.inl (if_neg hpid)

@[simp]
theorem threads_setCurrent (machine : Machine) (thread : Thread) (pid : ℕ) :
    (machine.setCurrent thread).threads pid =
      if pid = machine.sched.currentPid then thread else machine.threads pid := by
  simp [Machine.setCurrent, Function.update_apply]

theorem Owned.congr {machine next : Machine} (howned : Owned machine)
    (hlock : next.lock = machine.lock) (hthreads : next.threads = machine.threads) :
    Owned next := by
  intro pid
  rw [hlock, hthreads]
  exact howned pid

/-- A step of the current thread that neither takes nor releases the lock. -/
theorem Owned.setCurrent {machine : Machine} (howned : Owned machine) {thread : Thread}
    (hplace : thread.place.HasLock ↔ machine.current.place.HasLock) :
    Owned (machine.setCurrent thread) := by
  intro pid
  rw [threads_setCurrent]
  by_cases hpid : pid = machine.sched.currentPid
  · rw [if_pos hpid, hplace, hpid]
    exact howned machine.sched.currentPid
  · rw [if_neg hpid]
    exact howned pid

theorem Owned.acquire {machine : Machine} (howned : Owned machine) (hfree : machine.lock = none)
    {thread : Thread} (hplace : thread.place.HasLock) :
    Owned ({ machine with lock := some machine.sched.currentPid }.setCurrent thread) := by
  intro pid
  rw [threads_setCurrent]
  by_cases hpid : pid = machine.sched.currentPid
  · rw [if_pos hpid, hpid]
    exact iff_of_true rfl hplace
  · have hother : ¬ (machine.threads pid).place.HasLock := by
      rw [← howned pid, hfree]
      simp
    rw [if_neg hpid]
    exact iff_of_false (fun h => hpid (Option.some.inj h).symm) hother

theorem Owned.release {machine : Machine} (howned : Owned machine)
    (hheld : machine.current.place.HasLock) {thread : Thread}
    (hplace : ¬ thread.place.HasLock) :
    Owned ({ machine with lock := none }.setCurrent thread) := by
  have hlock : machine.lock = some machine.sched.currentPid := (howned _).mpr hheld
  intro pid
  rw [threads_setCurrent]
  by_cases hpid : pid = machine.sched.currentPid
  · rw [if_pos hpid]
    exact iff_of_false (fun h => by simp [Machine.setCurrent] at h) hplace
  · have hother : ¬ (machine.threads pid).place.HasLock := by
      rw [← howned pid, hlock]
      exact fun h => hpid (Option.some.inj h).symm
    rw [if_neg hpid]
    exact iff_of_false (fun h => by simp [Machine.setCurrent] at h) hother

theorem Owned.lockedSection {machine next : Machine} (howned : Owned machine)
    (hheld : machine.current.place.HasLock) {call : LockCall}
    (hsection : Lock.lockedSection machine call = some next) : Owned next := by
  have hlock : machine.lock = some machine.sched.currentPid := (howned _).mpr hheld
  obtain ⟨hlock', -, -, hthreads⟩ := lockedSection_eq_some hsection
  intro pid
  rw [hlock']
  rcases hthreads pid with hsame | ⟨hpid, hnew⟩
  · rw [hsame]
    exact howned pid
  · rw [hnew, hlock]
    exact iff_of_false (fun h => hpid (Option.some.inj h).symm) id

theorem intHandler_eq_some {machine next : Machine} {interruptBit : Bool} {esp : ℕ}
    (hint : intHandler machine interruptBit esp = some next) :
    next.lock = machine.lock ∧ next.threads = machine.threads ∧
      ((TakesLock machine (.drive interruptBit esp) ∧ next.handler.isSome ∧
          next.sched.currentPid = machine.sched.currentPid) ∨
        (¬ TakesLock machine (.drive interruptBit esp) ∧ next.handler = none)) := by
  unfold intHandler at hint
  split at hint
  next pid htransferring =>
    obtain rfl := Option.some.inj hint
    exact ⟨rfl, rfl, Or.inl ⟨Or.inl ⟨by simp [htransferring], rfl⟩, rfl, rfl⟩⟩
  next hquiet =>
    obtain ⟨hlock, hthreads, ⟨hempty, hhandler, hsched⟩ | ⟨hqueue, hhandler⟩⟩ :=
      runSchedule_eq_some hint
    · exact ⟨hlock, hthreads, Or.inl ⟨Or.inr hempty, hhandler, by rw [hsched]⟩⟩
    · refine ⟨hlock, hthreads, Or.inr ⟨?_, hhandler⟩⟩
      rintro (⟨hsome, hbit⟩ | hempty)
      · obtain ⟨pid, hpid⟩ := Option.isSome_iff_exists.mp hsome
        exact hquiet pid hpid hbit
      · exact hqueue hempty

/-- A step with the lock and the handler: the handler tests the lock, a thread
goes on, the current thread gives up the processor to an empty queue, or it is
interrupted by a handler that takes the lock. -/
inductive Moves (machine : Machine) (event : LockEvent) (next : Machine) : Prop
  | spins (hquiet : ¬ TakesLock machine event) (hlock : next = machine ∨ next.lock = none)
  | goes (hquiet : ¬ TakesLock machine event) (hhandler : next.handler = none)
  | yields (hoff : machine.lock ≠ some machine.sched.currentPid)
      (hlock : next.lock = machine.lock)
      (hcurrent : next.sched.currentPid = machine.sched.currentPid)
  | interrupted (hinterrupts : machine.current.interrupts = true)
      (htakes : TakesLock machine event) (hhandler : next.handler.isSome)
      (hlock : next.lock = machine.lock)
      (hcurrent : next.sched.currentPid = machine.sched.currentPid)

section Step

variable {machine next : Machine} (howned : Owned machine)

include howned

theorem Owned.spin (hspin : Lock.spin machine = some next) :
    Owned next ∧ Moves machine .spin next := by
  obtain rfl | ⟨hlock, hlock', hthreads⟩ := spin_eq_some hspin
  · exact ⟨howned, .spins id (Or.inl rfl)⟩
  · exact ⟨howned.congr (hlock'.trans hlock.symm) hthreads, .spins id (Or.inr hlock')⟩

theorem Owned.body {call : LockCall} (hnone : machine.handler = none)
    (hthread : machine.current.place = .holding call)
    (hsection : Lock.lockedSection
      (machine.setCurrent { machine.current with place := .releasing }) call = some next) :
    Owned next ∧ Moves machine .body next := by
  have howned' : Owned (machine.setCurrent { machine.current with place := .releasing }) := by
    refine howned.setCurrent ?_
    rw [hthread]
    exact Iff.rfl
  have hhandler := (lockedSection_eq_some hsection).2.1
  refine ⟨howned'.lockedSection ?_ hsection, .goes id (hhandler.trans hnone)⟩
  simp [Machine.current, Machine.setCurrent, Place.HasLock]

/-- A thread that gives up the processor is in no section. -/
theorem Owned.yield {esp : ℕ} (hthread : machine.current.place = .outside)
    (hrun : runSchedule machine esp = some next) :
    Owned next ∧ Moves machine (.yield esp) next := by
  have hoff : machine.lock ≠ some machine.sched.currentPid := by
    rw [Ne, howned machine.sched.currentPid]
    change ¬ machine.current.place.HasLock
    rw [hthread]
    exact id
  obtain ⟨hlock, hthreads, ⟨-, -, hsched⟩ | ⟨-, hhandler⟩⟩ := runSchedule_eq_some hrun
  · exact ⟨howned.congr hlock hthreads, .yields hoff hlock (by rw [hsched])⟩
  · exact ⟨howned.congr hlock hthreads, .goes id hhandler⟩

theorem Owned.timer {esp : ℕ} (hinterrupts : machine.current.interrupts = true)
    (hrun : runSchedule machine esp = some next) :
    Owned next ∧ Moves machine (.timer esp) next := by
  obtain ⟨hlock, hthreads, ⟨hempty, hhandler, hsched⟩ | ⟨hqueue, hhandler⟩⟩ :=
    runSchedule_eq_some hrun
  · exact ⟨howned.congr hlock hthreads,
      .interrupted hinterrupts hempty hhandler hlock (by rw [hsched])⟩
  · exact ⟨howned.congr hlock hthreads, .goes hqueue hhandler⟩

theorem Owned.drive {interruptBit : Bool} {esp : ℕ}
    (hinterrupts : machine.current.interrupts = true)
    (hint : intHandler machine interruptBit esp = some next) :
    Owned next ∧ Moves machine (.drive interruptBit esp) next := by
  obtain ⟨hlock, hthreads, ⟨htakes, hhandler, hcurrent⟩ | ⟨hfree, hhandler⟩⟩ :=
    intHandler_eq_some hint
  · exact ⟨howned.congr hlock hthreads,
      .interrupted hinterrupts htakes hhandler hlock hcurrent⟩
  · exact ⟨howned.congr hlock hthreads, .goes hfree hhandler⟩

/-- The inversion lemma. -/
theorem step_spec {event : LockEvent} (hstep : step machine event = some next) :
    Owned next ∧ Moves machine event next := by
  unfold step at hstep
  split at hstep
  next handler hhandler =>
    split at hstep
    next => exact howned.spin hstep
    next => simp at hstep
  next hnone =>
    simp only at hstep
    split at hstep
    next hthread =>
      obtain rfl := Option.some.inj hstep
      refine ⟨howned.setCurrent ?_, .goes id hnone⟩
      rw [hthread]
    next hthread =>
      obtain rfl := Option.some.inj hstep
      refine ⟨howned.setCurrent ?_, .goes id hnone⟩
      rw [hthread]
    next call hthread =>
      obtain rfl := Option.some.inj hstep
      refine ⟨howned.setCurrent ?_, .goes id hnone⟩
      rw [hthread]
      exact Iff.rfl
    next call hthread =>
      split at hstep
      next hfree =>
        obtain rfl := Option.some.inj hstep
        exact ⟨howned.acquire hfree trivial, .goes id hnone⟩
      next =>
        obtain rfl := Option.some.inj hstep
        exact ⟨howned, .goes id hnone⟩
    next call hthread => exact howned.body hnone hthread hstep
    next hthread =>
      obtain rfl := Option.some.inj hstep
      refine ⟨howned.release ?_ id, .goes id hnone⟩
      rw [hthread]
      trivial
    next hthread =>
      obtain rfl := Option.some.inj hstep
      exact ⟨howned.congr rfl rfl, .goes id hnone⟩
    next esp hthread => exact howned.yield hthread hstep
    next esp hplace =>
      split at hstep
      next hinterrupts => exact howned.timer hinterrupts hstep
      next => simp at hstep
    next interruptBit esp hplace =>
      split at hstep
      next hinterrupts => exact howned.drive hinterrupts hstep
      next => simp at hstep
    next => simp at hstep

end Step

/-! ## Sections with interrupts masked -/

/-- A thread in a section is the current one, and nothing interrupts it. -/
def Guarded (machine : Machine) : Prop :=
  ∀ pid, (machine.threads pid).place ≠ .outside →
    pid = machine.sched.currentPid ∧ (machine.threads pid).interrupts = false ∧
      machine.handler = none

theorem guarded_init (memory : ℕ → Process) (interrupts : ℕ → Bool) :
    Guarded (init memory interrupts) := by
  intro pid hplace
  exact absurd rfl hplace

theorem guarded_of_outside {machine : Machine}
    (houtside : ∀ pid, (machine.threads pid).place = .outside) : Guarded machine := by
  intro pid hplace
  exact absurd (houtside pid) hplace

/-- When the current thread is in no section, no thread is. -/
theorem Guarded.outside {machine : Machine} (hguarded : Guarded machine)
    (hcurrent : machine.current.place = .outside) (pid : ℕ) :
    (machine.threads pid).place = .outside := by
  by_contra hplace
  obtain ⟨rfl, -⟩ := hguarded pid hplace
  exact hplace hcurrent

/-- A thread that can be interrupted is in no section. -/
theorem Guarded.outside_of_interrupts {machine : Machine} (hguarded : Guarded machine)
    (hinterrupts : machine.current.interrupts = true) : machine.current.place = .outside := by
  by_contra hplace
  have hmasked := (hguarded machine.sched.currentPid hplace).2.1
  rw [← Machine.current, hinterrupts] at hmasked
  simp at hmasked

theorem Guarded.setCurrent {machine next : Machine} (hguarded : Guarded machine)
    {thread : Thread} (hcurrent : next.sched.currentPid = machine.sched.currentPid)
    (hhandler : next.handler = none)
    (hthreads : ∀ pid, next.threads pid = (machine.setCurrent thread).threads pid ∨
      (next.threads pid).place = .outside)
    (hthread : thread.place = .outside ∨ thread.interrupts = false) : Guarded next := by
  intro pid hplace
  have hsame : next.threads pid = (machine.setCurrent thread).threads pid :=
    (hthreads pid).resolve_right hplace
  rw [hsame, threads_setCurrent] at hplace
  rw [hsame, threads_setCurrent, hcurrent]
  by_cases hpid : pid = machine.sched.currentPid
  · rw [if_pos hpid] at hplace ⊢
    exact ⟨hpid, hthread.resolve_left hplace, hhandler⟩
  · rw [if_neg hpid] at hplace
    exact absurd (hguarded pid hplace).1 hpid

theorem Guarded.step {machine next : Machine} {event : LockEvent}
    (hguarded : Guarded machine) (hmasked : Masked machine event)
    (hstep : Lock.step machine event = some next) : Guarded next := by
  unfold Lock.step at hstep
  split at hstep
  next handler hhandler =>
    split at hstep
    next =>
      refine guarded_of_outside ?_
      intro pid
      have houtside : (machine.threads pid).place = .outside := by
        by_contra hplace
        have hnone := (hguarded pid hplace).2.2
        rw [hhandler] at hnone
        simp at hnone
      rcases spin_eq_some hstep with rfl | ⟨-, -, hthreads⟩
      · exact houtside
      · rw [hthreads]
        exact houtside
    next => simp at hstep
  next hnone =>
    -- a thread inside a section has its interrupts masked
    have hinside : machine.current.place ≠ .outside → machine.current.interrupts = false :=
      fun hplace => (hguarded _ hplace).2.1
    simp only at hstep
    split at hstep
    next hthread =>
      obtain rfl := Option.some.inj hstep
      exact hguarded.setCurrent rfl hnone (fun _ => Or.inl rfl) (Or.inl hthread)
    next hthread =>
      obtain rfl := Option.some.inj hstep
      exact hguarded.setCurrent rfl hnone (fun _ => Or.inl rfl) (Or.inl hthread)
    next call hthread =>
      obtain rfl := Option.some.inj hstep
      exact hguarded.setCurrent rfl hnone (fun _ => Or.inl rfl) (Or.inr hmasked)
    next call hthread =>
      have hinterrupts := hinside (by simp [hthread])
      split at hstep
      next =>
        obtain rfl := Option.some.inj hstep
        exact hguarded.setCurrent rfl hnone (fun _ => Or.inl rfl) (Or.inr hinterrupts)
      next =>
        obtain rfl := Option.some.inj hstep
        exact hguarded
    next call hthread =>
      have hinterrupts := hinside (by simp [hthread])
      obtain ⟨-, hhandler, hcurrent, hthreads⟩ := lockedSection_eq_some hstep
      have hplaces : ∀ pid, next.threads pid = (machine.setCurrent
          { machine.current with place := .releasing }).threads pid ∨
          (next.threads pid).place = .outside := by
        intro pid
        rcases hthreads pid with hsame | ⟨-, hnew⟩
        · exact Or.inl hsame
        · exact Or.inr (by rw [hnew])
      exact hguarded.setCurrent hcurrent (hhandler.trans hnone) hplaces (Or.inr hinterrupts)
    next hthread =>
      obtain rfl := Option.some.inj hstep
      exact hguarded.setCurrent rfl hnone (fun _ => Or.inl rfl) (Or.inl rfl)
    next hthread =>
      obtain rfl := Option.some.inj hstep
      exact guarded_of_outside (hguarded.outside hthread)
    next esp hthread =>
      refine guarded_of_outside ?_
      rw [(runSchedule_eq_some hstep).2.1]
      exact hguarded.outside hthread
    next esp hplace =>
      split at hstep
      next hinterrupts =>
        refine guarded_of_outside ?_
        rw [(runSchedule_eq_some hstep).2.1]
        exact hguarded.outside (hguarded.outside_of_interrupts hinterrupts)
      next => simp at hstep
    next interruptBit esp hplace =>
      split at hstep
      next hinterrupts =>
        refine guarded_of_outside ?_
        rw [(intHandler_eq_some hstep).2.1]
        exact hguarded.outside (hguarded.outside_of_interrupts hinterrupts)
      next => simp at hstep
    next => simp at hstep

/-- An interrupt that comes at all is harmless when sections are guarded. -/
theorem Guarded.harmless {machine next : Machine} {event : LockEvent}
    (hguarded : Guarded machine) (howned : Owned machine)
    (hstep : Lock.step machine event = some next) : Harmless machine event := by
  intro hlock htakes
  cases (step_spec howned hstep).2 with
  | spins hquiet => exact hquiet htakes
  | goes hquiet => exact hquiet htakes
  | yields hoff => exact hoff hlock
  | interrupted hinterrupts =>
      have hheld : machine.current.place.HasLock := (howned _).mp hlock
      rw [hguarded.outside_of_interrupts hinterrupts] at hheld
      exact hheld

/-! ## Runs -/

/-- What a run without a deadlock keeps. -/
def LockInv (machine : Machine) : Prop := Owned machine ∧ ¬ SelfDeadlock machine

theorem lockInv_init (memory : ℕ → Process) (interrupts : ℕ → Bool) :
    LockInv (init memory interrupts) :=
  ⟨owned_init memory interrupts, fun hdead => by simp [SelfDeadlock, init] at hdead⟩

theorem LockInv.step {machine next : Machine} {event : LockEvent} (hinv : LockInv machine)
    (hharmless : Harmless machine event) (hstep : Lock.step machine event = some next) :
    LockInv next := by
  obtain ⟨howned, hmoves⟩ := step_spec hinv.1 hstep
  refine ⟨howned, ?_⟩
  intro hdead
  cases hmoves with
  | spins _ hlock =>
      obtain rfl | hfree := hlock
      · exact hinv.2 hdead
      · simp [SelfDeadlock, hfree] at hdead
  | goes _ hhandler => simp [SelfDeadlock, hhandler] at hdead
  | yields hoff hlock hcurrent =>
      apply hoff
      rw [← hlock, ← hcurrent]
      exact hdead.2
  | interrupted _ htakes _ hlock hcurrent =>
      refine hharmless ?_ htakes
      rw [← hlock, ← hcurrent]
      exact hdead.2

theorem LockInv.harmless {machine next : Machine} {event : LockEvent} (hinv : LockInv machine)
    (hstep : Lock.step machine event = some next) (hfree : ¬ SelfDeadlock next) :
    Harmless machine event := by
  intro hlock htakes
  cases (step_spec hinv.1 hstep).2 with
  | spins hquiet => exact hquiet htakes
  | goes hquiet => exact hquiet htakes
  | yields hoff => exact hoff hlock
  | interrupted _ _ hhandler hlock' hcurrent =>
      exact hfree ⟨hhandler, by rw [hlock', hcurrent, hlock]⟩

/-- A run reaches no self-deadlock exactly if no interrupt that takes the lock
comes while the current thread holds it, and it reaches none when all callers
mask interrupts. -/
theorem no_self_deadlock_iff (memory : ℕ → Process) (interrupts : ℕ → Bool)
    {events : List LockEvent} {final : Machine}
    (hrun : exec step (init memory interrupts) events = some final) :
    ((∀ n reached, exec step (init memory interrupts) (events.take n) = some reached →
        ¬ SelfDeadlock reached) ↔
      Meets step Harmless (init memory interrupts) events) ∧
    (Meets step Masked (init memory interrupts) events →
      ∀ n reached, exec step (init memory interrupts) (events.take n) = some reached →
        ¬ SelfDeadlock reached) := by
  constructor
  · have hgood : ∀ machine, LockInv machine → ¬ SelfDeadlock machine := fun _ hinv => hinv.2
    refine (meets_iff_forall_good hgood ?_ ?_ (lockInv_init memory interrupts)
      (meets_of_forall (fun _ _ => trivial) _ _) hrun).symm
    · intro machine event next hinv _ hharmless hstep
      exact hinv.step hharmless hstep
    · intro machine event next hinv _ hstep hfree
      exact hinv.harmless hstep hfree
  · intro hmasked n reached hreached
    have hkeep : ∀ machine event next, (LockInv machine ∧ Guarded machine) →
        Masked machine event → step machine event = some next →
        LockInv next ∧ Guarded next := by
      intro machine event next ⟨hinv, hguarded⟩ hmask hstep
      exact ⟨hinv.step (hguarded.harmless hinv.1 hstep) hstep, hguarded.step hmask hstep⟩
    exact (exec_invariant hkeep ⟨lockInv_init memory interrupts, guarded_init memory interrupts⟩
      (hmasked.take n) hreached).1.2

/-- Two processes are spawned, and the second one starts a transfer and blocks;
the first one, back on the processor, has taken the lock to unblock a third when
the transfer completes. -/
def driveInSection : List LockEvent :=
  [.call (.spawn 0 0), .acquire, .body, .release,
    .call (.spawn 0 0), .acquire, .body, .release, .yield 0,
    .cli, .call (.remove 1), .acquire, .body, .release, .startTransfer, .sti, .yield 0,
    .call (.add 2), .acquire, .drive true 0]

def blankTable : ℕ → Process := fun _ => ⟨false, false, false, 0, 0, 0, 0⟩

/-- A process is spawned with interrupts masked, and then the timer ticks. -/
theorem no_self_deadlock_masked :
    ∃ final, exec step (init blankTable fun _ => true)
        [.cli, .call (.spawn 0 0), .acquire, .body, .release, .sti, .timer 0] = some final ∧
      ¬ SelfDeadlock final := by
  have hrun : (exec step (init blankTable fun _ => true)
      [.cli, .call (.spawn 0 0), .acquire, .body, .release, .sti, .timer 0]).isSome = true := by
    decide +kernel
  obtain ⟨final, hfinal⟩ := Option.isSome_iff_exists.mp hrun
  refine ⟨final, hfinal, (no_self_deadlock_iff blankTable (fun _ => true) hfinal).2 ?_ 7 final
    hfinal⟩
  refine meets_cons_intro trivial fun masked hcli => ?_
  refine meets_cons_intro ?_ fun _ _ => meets_cons_intro trivial fun _ _ =>
    meets_cons_intro trivial fun _ _ => meets_cons_intro trivial fun _ _ =>
    meets_cons_intro trivial fun _ _ => meets_cons_intro trivial fun _ _ => trivial
  obtain rfl := Option.some.inj hcli
  rfl

theorem self_deadlock_reached :
    ¬ ∀ (memory : ℕ → Process) (interrupts : ℕ → Bool) (events : List LockEvent)
      (final : Machine), exec step (init memory interrupts) events = some final →
      ¬ SelfDeadlock final := by
  intro hall
  have hrun : (exec step (init blankTable fun _ => true) driveInSection).map
      (fun machine => (machine.handler.isSome, machine.lock, machine.sched.currentPid)) =
      some (true, some 0, 0) := by
    decide +kernel
  obtain ⟨final, hfinal, hvalues⟩ := Option.map_eq_some_iff.mp hrun
  simp only [Prod.mk.injEq] at hvalues
  obtain ⟨hhandler, hlock, hcurrent⟩ := hvalues
  exact hall _ _ driveInSection final hfinal ⟨hhandler, by rw [hlock, hcurrent]⟩

end KimisOS.Scheduler.Lock
