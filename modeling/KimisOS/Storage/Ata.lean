import KimisOS.Scheduler.Queue

/-!
# The transfer protocol of the ATA driver

A process that reads or writes a disk takes the lock of the primary channel,
programs the drive, and then, with interrupts off, blocks itself and starts
the bus master.  The lock is given back by the interrupt handler.  Taking the
lock, that last region and the handler are the atomic steps here; the timer
may run the scheduler between any two of them.
-/

namespace KimisOS.Ata

open KimisOS.Run
open KimisOS.Scheduler

/-- The two callers of the protocol. -/
inductive Direction where
  | read
  | write
  deriving DecidableEq

/-- The byte `ata_read` and `ata_write` write to start the bus master. -/
def Direction.busMasterCommand : Direction → BitVec 8
  | read => 0x09
  | write => 0x01

/-- One call of `ata_read` or `ata_write`, for a file whose `id` is an index of
`drives`. -/
structure Request where
  direction : Direction
  diskIndex : Fin 32
  count : BitVec 64
  deriving DecidableEq

/-- `sector_count`, the 32-bit product of the number of pages and 8. -/
def Request.sectorCount (request : Request) : BitVec 32 :=
  ((request.count + 4095) / 4096).truncate 32 * 8

/-- Where a process stands in its call. -/
inductive Stage where
  | idle
  | acquiring (request : Request)
  | programming (request : Request)
  | started
  | returning
  deriving DecidableEq

/-- A transfer the bus master of a drive was started for. -/
structure Transfer where
  diskIndex : Fin 32
  command : BitVec 8
  pid : ℕ
  deriving DecidableEq

/-- The globals of the driver.  `inFlight` lists the transfers of the bus
masters that were started and not stopped since. -/
structure Driver where
  sched : SchedState
  stage : ℕ → Stage
  transferringDiskIndex : ℕ
  transferringPid : ℕ
  primaryAtaLocked : ℕ
  inFlight : List Transfer

/-- `transferring_disk_index == -1`. -/
def noDisk : ℕ := 2 ^ 32 - 1

/-- The driver when its module is loaded. -/
def Driver.loaded (sched : SchedState) : Driver where
  sched := sched
  stage _ := .idle
  transferringDiskIndex := noDisk
  transferringPid := 0
  primaryAtaLocked := 0
  inFlight := []

def Driver.setStage (driver : Driver) (stage : Stage) : Driver :=
  { driver with
    stage := Function.update driver.stage driver.sched.currentPid stage }

/-- The scheduler, run by `int $32` or by the timer. -/
def Driver.schedule (driver : Driver) (esp : ℕ) : Option Driver :=
  match Scheduler.schedule driver.sched esp with
  | none => none
  | some sched => some { driver with sched := sched }

/-- The entry of `ata_read` and `ata_write`: a count of 0 returns `-1`. -/
def Driver.call (driver : Driver) (request : Request) : Driver :=
  if request.count = 0 then driver else driver.setStage (.acquiring request)

/-- One round of `ata_acquire_primary_lock`. -/
def Driver.ataAcquirePrimaryLock (driver : Driver) (request : Request)
    (esp : ℕ) : Option Driver :=
  if driver.primaryAtaLocked ≠ 0 then driver.schedule esp
  else some { driver.setStage (.programming request) with primaryAtaLocked := 1 }

/-- The region of `ata_read` and `ata_write` that runs with interrupts off. -/
def Driver.startTransfer (driver : Driver) (request : Request) :
    Option Driver :=
  let cpid := driver.sched.currentPid
  match setPidBlocked driver.sched cpid with
  | none => none
  | some sched =>
      some { driver.setStage .started with
        sched := sched
        transferringDiskIndex := request.diskIndex
        transferringPid := cpid
        inFlight :=
          ⟨request.diskIndex, request.direction.busMasterCommand, cpid⟩ ::
            driver.inFlight }

/-- From the lock to the start of the bus master; a request of no sectors
returns `-1` with the lock taken. -/
def Driver.program (driver : Driver) (request : Request) : Option Driver :=
  if request.sectorCount = 0 then some (driver.setStage .idle)
  else driver.startTransfer request

/-- The next atomic step of the current process. -/
def Driver.advance (driver : Driver) (esp : ℕ) : Option Driver :=
  match driver.stage driver.sched.currentPid with
  | .idle => some driver
  | .acquiring request => driver.ataAcquirePrimaryLock request esp
  | .programming request => driver.program request
  | .started => (driver.setStage .returning).schedule esp
  | .returning => some (driver.setStage .idle)

/-- The end of a transfer: the globals are reset and the process is woken. -/
def Driver.endTransfer (driver : Driver) : Option Driver :=
  match setPidUnblocked driver.sched driver.transferringPid with
  | none => none
  | some sched =>
      some { driver with
        sched := sched
        transferringDiskIndex := noDisk
        transferringPid := 0
        primaryAtaLocked := 0
        inFlight := driver.inFlight.filter fun transfer =>
          (transfer.diskIndex : ℕ) ≠ driver.transferringDiskIndex }

/-- `int_handler`, with the bus-master status it reads.  It stops the bus
master of the transferring disk; a DMA error ends the transfer like its
completion does. -/
def Driver.intHandler (driver : Driver) (status : BitVec 8) : Option Driver :=
  if driver.transferringDiskIndex = noDisk then some driver
  else if status &&& 0x4 = 0 then some driver
  else if status &&& 0x2 ≠ 0 then driver.endTransfer
  else driver.endTransfer

inductive Event where
  | call (request : Request)
  | advance (esp : ℕ)
  | timer (esp : ℕ)
  | interrupt (status : BitVec 8)

/-- One atomic step; a process starts a call only when it is in none. -/
def step (driver : Driver) : Event → Option Driver
  | .call request =>
      match driver.stage driver.sched.currentPid with
      | .idle => some (driver.call request)
      | _ => some driver
  | .advance esp => driver.advance esp
  | .timer esp => driver.schedule esp
  | .interrupt status => driver.intHandler status

/-! ## The invariant -/

/-- The process has the lock for a transfer it has not started. -/
def Driver.Programming (driver : Driver) (pid : ℕ) : Prop :=
  ∃ request, driver.stage pid = .programming request

/-- No transfer is in flight: the lock is free, or one process has it. -/
structure Quiet (driver : Driver) : Prop where
  inFlight : driver.inFlight = []
  index : driver.transferringDiskIndex = noDisk
  locked : ∀ pid, driver.Programming pid → driver.primaryAtaLocked = 1
  unique : ∀ pid other, driver.Programming pid → driver.Programming other →
    pid = other

/-- One transfer is in flight, and it owns the lock. -/
structure Busy (driver : Driver) (transfer : Transfer) : Prop where
  inFlight : driver.inFlight = [transfer]
  index : driver.transferringDiskIndex = transfer.diskIndex
  pid : driver.transferringPid = transfer.pid
  locked : driver.primaryAtaLocked = 1
  blocked : (driver.sched.processes transfer.pid).blocked = true
  noneProgramming : ∀ pid, ¬ driver.Programming pid

def Inv (driver : Driver) : Prop :=
  Quiet driver ∨ ∃ transfer, Busy driver transfer

/-- Every transfer in flight has left room in the run queue for its
process. -/
def HasRoom (driver : Driver) : Prop :=
  driver.sched.queueLength + driver.inFlight.length ≤ processCount

theorem loaded_inv (sched : SchedState) : Inv (Driver.loaded sched) := by
  left
  constructor
  · rfl
  · rfl
  · rintro pid ⟨request, hstage⟩
    cases hstage
  · rintro pid other ⟨request, hstage⟩
    cases hstage

theorem diskIndex_ne_noDisk (transfer : Transfer) :
    (transfer.diskIndex : ℕ) ≠ noDisk := by
  have hindex := transfer.diskIndex.isLt
  unfold noDisk
  omega

/-- A step that starts and ends no transfer and hands nobody the lock. -/
structure Unmoved (driver next : Driver) : Prop where
  inFlight : next.inFlight = driver.inFlight
  index : next.transferringDiskIndex = driver.transferringDiskIndex
  pid : next.transferringPid = driver.transferringPid
  locked : next.primaryAtaLocked = driver.primaryAtaLocked
  blocked : ∀ pid, (next.sched.processes pid).blocked =
    (driver.sched.processes pid).blocked
  programming : ∀ pid, next.Programming pid → driver.Programming pid

theorem Unmoved.refl (driver : Driver) : Unmoved driver driver :=
  ⟨rfl, rfl, rfl, rfl, fun _ => rfl, fun _ hpid => hpid⟩

theorem Unmoved.trans {driver mid next : Driver} (hfirst : Unmoved driver mid)
    (hsecond : Unmoved mid next) : Unmoved driver next where
  inFlight := hsecond.inFlight.trans hfirst.inFlight
  index := hsecond.index.trans hfirst.index
  pid := hsecond.pid.trans hfirst.pid
  locked := hsecond.locked.trans hfirst.locked
  blocked pid := (hsecond.blocked pid).trans (hfirst.blocked pid)
  programming pid hpid := hfirst.programming pid (hsecond.programming pid hpid)

theorem Unmoved.inv {driver next : Driver} (hunmoved : Unmoved driver next)
    (hinv : Inv driver) : Inv next := by
  rcases hinv with hquiet | ⟨transfer, hbusy⟩
  · left
    constructor
    · rw [hunmoved.inFlight, hquiet.inFlight]
    · rw [hunmoved.index, hquiet.index]
    · intro pid hpid
      rw [hunmoved.locked, hquiet.locked pid (hunmoved.programming pid hpid)]
    · intro pid other hpid hother
      exact hquiet.unique pid other (hunmoved.programming pid hpid)
        (hunmoved.programming other hother)
  · right
    refine ⟨transfer, ?_⟩
    constructor
    · rw [hunmoved.inFlight, hbusy.inFlight]
    · rw [hunmoved.index, hbusy.index]
    · rw [hunmoved.pid, hbusy.pid]
    · rw [hunmoved.locked, hbusy.locked]
    · rw [hunmoved.blocked, hbusy.blocked]
    · intro pid hpid
      exact hbusy.noneProgramming pid (hunmoved.programming pid hpid)

/-! ## The steps -/

theorem setStage_unmoved (driver : Driver) {stage : Stage}
    (hstage : ∀ request, stage ≠ .programming request) :
    Unmoved driver (driver.setStage stage) where
  inFlight := rfl
  index := rfl
  pid := rfl
  locked := rfl
  blocked _ := rfl
  programming pid := by
    rintro ⟨request, hpid⟩
    by_cases hcurrent : pid = driver.sched.currentPid
    · subst hcurrent
      have hset : stage = .programming request := by
        simpa [Driver.setStage] using hpid
      exact absurd hset (hstage request)
    · refine ⟨request, ?_⟩
      simpa [Driver.setStage, hcurrent] using hpid

theorem schedule_unmoved {driver next : Driver} {esp : ℕ}
    (hschedule : driver.schedule esp = some next) : Unmoved driver next := by
  unfold Driver.schedule at hschedule
  cases hsched : Scheduler.schedule driver.sched esp with
  | none => simp [hsched] at hschedule
  | some sched =>
      simp only [hsched] at hschedule
      obtain rfl := Option.some.inj hschedule
      exact ⟨rfl, rfl, rfl, rfl, (schedule_keeps hsched).1, fun _ hpid => hpid⟩

theorem call_unmoved (driver : Driver) (request : Request) :
    Unmoved driver (driver.call request) := by
  unfold Driver.call
  split
  · exact .refl driver
  · apply setStage_unmoved
    intro request hstage
    cases hstage

/-- The lock is taken only when no transfer is in flight and no other process
has it. -/
theorem ataAcquirePrimaryLock_inv {driver next : Driver} {request : Request}
    {esp : ℕ} (hinv : Inv driver)
    (hacquire : driver.ataAcquirePrimaryLock request esp = some next) :
    Inv next := by
  unfold Driver.ataAcquirePrimaryLock at hacquire
  by_cases hlocked : driver.primaryAtaLocked ≠ 0
  · rw [if_pos hlocked] at hacquire
    exact (schedule_unmoved hacquire).inv hinv
  · rw [if_neg hlocked] at hacquire
    have hfree : driver.primaryAtaLocked = 0 := not_not.mp hlocked
    obtain rfl := Option.some.inj hacquire
    rcases hinv with hquiet | ⟨transfer, hbusy⟩
    · have honly : ∀ pid, Driver.Programming
          { driver.setStage (.programming request) with primaryAtaLocked := 1 }
          pid → pid = driver.sched.currentPid := by
        rintro pid ⟨other, hpid⟩
        by_contra hcurrent
        have hholder : driver.Programming pid := by
          refine ⟨other, ?_⟩
          simpa [Driver.setStage, hcurrent] using hpid
        have := hquiet.locked pid hholder
        omega
      left
      constructor
      · exact hquiet.inFlight
      · exact hquiet.index
      · intro pid hpid
        rfl
      · intro pid other hpid hother
        rw [honly pid hpid, honly other hother]
    · have := hbusy.locked
      omega

/-- What the start of a transfer does to the scheduler. -/
theorem setPidBlocked_keeps {sched next : SchedState} {pid : ℕ}
    (hblock : setPidBlocked sched pid = some next) :
    next.processes = Function.update sched.processes pid
        { sched.processes pid with blocked := true } ∧
      next.queueLength + 1 = sched.queueLength := by
  obtain ⟨hprocesses, -, hlength⟩ := removeProcessQueue_keeps hblock
  exact ⟨hprocesses, hlength⟩

theorem setPidUnblocked_keeps {sched next : SchedState} {pid : ℕ}
    (hwake : setPidUnblocked sched pid = some next) :
    next.processes = Function.update sched.processes pid
        { sched.processes pid with blocked := false } ∧
      next.queueLength = sched.queueLength + 1 ∧
      next.queue = sched.queue ++ [pid] := by
  obtain ⟨hprocesses, -, hlength, hqueue⟩ := addProcessQueue_keeps hwake
  exact ⟨hprocesses, hlength, hqueue⟩

/-- The process that starts a transfer had the lock, so nothing is in flight
and nobody else is about to start one. -/
theorem startTransfer_inv {driver next : Driver} {request : Request}
    (hinv : Inv driver)
    (hstage : driver.stage driver.sched.currentPid = .programming request)
    (hstart : driver.startTransfer request = some next) : Inv next := by
  have hholder : driver.Programming driver.sched.currentPid := ⟨request, hstage⟩
  rcases hinv with hquiet | ⟨transfer, hbusy⟩
  · unfold Driver.startTransfer at hstart
    cases hblock : setPidBlocked driver.sched driver.sched.currentPid with
    | none => simp [hblock] at hstart
    | some sched =>
        simp only [hblock] at hstart
        obtain rfl := Option.some.inj hstart
        obtain ⟨hprocesses, -⟩ := setPidBlocked_keeps hblock
        right
        refine ⟨⟨request.diskIndex, request.direction.busMasterCommand,
          driver.sched.currentPid⟩, ?_⟩
        constructor
        · simp [hquiet.inFlight]
        · rfl
        · rfl
        · exact hquiet.locked _ hholder
        · simp [hprocesses]
        · rintro pid ⟨other, hpid⟩
          by_cases hcurrent : pid = driver.sched.currentPid
          · simp [Driver.setStage, hcurrent] at hpid
          · have hother : driver.Programming pid := by
              refine ⟨other, ?_⟩
              simpa [Driver.setStage, hcurrent] using hpid
            exact hcurrent (hquiet.unique pid _ hother hholder)
  · exact absurd hholder (hbusy.noneProgramming _)

theorem program_inv {driver next : Driver} {request : Request}
    (hinv : Inv driver)
    (hstage : driver.stage driver.sched.currentPid = .programming request)
    (hprogram : driver.program request = some next) : Inv next := by
  unfold Driver.program at hprogram
  split at hprogram
  · obtain rfl := Option.some.inj hprogram
    exact (setStage_unmoved driver (by simp)).inv hinv
  · exact startTransfer_inv hinv hstage hprogram

theorem advance_inv {driver next : Driver} {esp : ℕ} (hinv : Inv driver)
    (hadvance : driver.advance esp = some next) : Inv next := by
  unfold Driver.advance at hadvance
  cases hstage : driver.stage driver.sched.currentPid with
  | idle =>
      simp only [hstage] at hadvance
      obtain rfl := Option.some.inj hadvance
      exact hinv
  | acquiring request =>
      simp only [hstage] at hadvance
      exact ataAcquirePrimaryLock_inv hinv hadvance
  | programming request =>
      simp only [hstage] at hadvance
      exact program_inv hinv hstage hadvance
  | started =>
      simp only [hstage] at hadvance
      have hreturning : Unmoved driver (driver.setStage .returning) :=
        setStage_unmoved driver (by simp)
      exact (hreturning.trans (schedule_unmoved hadvance)).inv hinv
  | returning =>
      simp only [hstage] at hadvance
      obtain rfl := Option.some.inj hadvance
      exact (setStage_unmoved driver (by simp)).inv hinv

/-! ## The interrupt handler -/

theorem intHandler_of_quiet {driver : Driver} (hquiet : Quiet driver)
    (status : BitVec 8) : driver.intHandler status = some driver := by
  rw [Driver.intHandler, if_pos hquiet.index]

theorem intHandler_of_spurious (driver : Driver) {status : BitVec 8}
    (hbit : status &&& 0x4 = 0) : driver.intHandler status = some driver := by
  rw [Driver.intHandler, if_pos hbit, ite_id]

theorem intHandler_of_busy {driver : Driver} {transfer : Transfer}
    (hbusy : Busy driver transfer) {status : BitVec 8}
    (hbit : status &&& 0x4 ≠ 0) :
    driver.intHandler status = driver.endTransfer := by
  have hindex : driver.transferringDiskIndex ≠ noDisk := by
    rw [hbusy.index]
    exact diskIndex_ne_noDisk transfer
  rw [Driver.intHandler, if_neg hindex, if_neg hbit, ite_id]

/-- The end of a transfer wakes its process and no other, and gives back the
lock. -/
structure Ended (driver next : Driver) (transfer : Transfer) : Prop where
  inFlight : next.inFlight = []
  index : next.transferringDiskIndex = noDisk
  unlocked : next.primaryAtaLocked = 0
  unblocked : (next.sched.processes transfer.pid).blocked = false
  queue : next.sched.queue = driver.sched.queue ++ [transfer.pid]
  others : ∀ pid, pid ≠ transfer.pid →
    next.sched.processes pid = driver.sched.processes pid
  stage : next.stage = driver.stage
  queueLength : next.sched.queueLength = driver.sched.queueLength + 1

theorem endTransfer_ended {driver next : Driver} {transfer : Transfer}
    (hbusy : Busy driver transfer) (hend : driver.endTransfer = some next) :
    Ended driver next transfer := by
  unfold Driver.endTransfer at hend
  cases hwake : setPidUnblocked driver.sched driver.transferringPid with
  | none => simp [hwake] at hend
  | some sched =>
      simp only [hwake] at hend
      obtain rfl := Option.some.inj hend
      rw [hbusy.pid] at hwake
      obtain ⟨hprocesses, hlength, hqueue⟩ := setPidUnblocked_keeps hwake
      constructor
      · simp [hbusy.inFlight, hbusy.index]
      · rfl
      · rfl
      · simp [hprocesses]
      · exact hqueue
      · intro pid hpid
        simp [hprocesses, hpid]
      · rfl
      · exact hlength

theorem Ended.quiet {driver next : Driver} {transfer : Transfer}
    (hended : Ended driver next transfer) (hbusy : Busy driver transfer) :
    Quiet next := by
  have hnone : ∀ pid, ¬ next.Programming pid := by
    rintro pid ⟨request, hpid⟩
    rw [hended.stage] at hpid
    exact hbusy.noneProgramming pid ⟨request, hpid⟩
  constructor
  · exact hended.inFlight
  · exact hended.index
  · intro pid hpid
    exact absurd hpid (hnone pid)
  · intro pid other hpid
    exact absurd hpid (hnone pid)

theorem intHandler_inv {driver next : Driver} {status : BitVec 8}
    (hinv : Inv driver) (hhandler : driver.intHandler status = some next) :
    Inv next := by
  by_cases hbit : status &&& 0x4 = 0
  · rw [intHandler_of_spurious driver hbit] at hhandler
    obtain rfl := Option.some.inj hhandler
    exact hinv
  · rcases hinv with hquiet | ⟨transfer, hbusy⟩
    · rw [intHandler_of_quiet hquiet] at hhandler
      obtain rfl := Option.some.inj hhandler
      exact .inl hquiet
    · rw [intHandler_of_busy hbusy hbit] at hhandler
      exact .inl ((endTransfer_ended hbusy hhandler).quiet hbusy)

theorem step_inv {driver next : Driver} {event : Event} (hinv : Inv driver)
    (hstep : step driver event = some next) : Inv next := by
  cases event with
  | call request =>
      simp only [step] at hstep
      split at hstep
      · obtain rfl := Option.some.inj hstep
        exact (call_unmoved driver request).inv hinv
      · obtain rfl := Option.some.inj hstep
        exact hinv
  | advance esp => exact advance_inv hinv hstep
  | timer esp => exact (schedule_unmoved hstep).inv hinv
  | interrupt status => exact intHandler_inv hinv hstep

/-! ## Room in the run queue -/

theorem Inv.inFlight_length_le {driver : Driver} (hinv : Inv driver) :
    driver.inFlight.length ≤ 1 := by
  rcases hinv with hquiet | ⟨transfer, hbusy⟩
  · simp [hquiet.inFlight]
  · simp [hbusy.inFlight]

theorem schedule_hasRoom {driver next : Driver} {esp : ℕ} (hinv : Inv driver)
    (hroom : HasRoom driver) (hschedule : driver.schedule esp = some next) :
    HasRoom next := by
  have hflight := hinv.inFlight_length_le
  unfold Driver.schedule at hschedule
  cases hsched : Scheduler.schedule driver.sched esp with
  | none => simp [hsched] at hschedule
  | some sched =>
      simp only [hsched] at hschedule
      obtain rfl := Option.some.inj hschedule
      unfold HasRoom at *
      have hcount : processCount = 65536 := rfl
      rcases (schedule_keeps hsched).2 with hsame | ⟨hempty, hone⟩
      · simpa only [hsame] using hroom
      · simp only [hone]
        omega

theorem startTransfer_hasRoom {driver next : Driver} {request : Request}
    (hroom : HasRoom driver)
    (hstart : driver.startTransfer request = some next) : HasRoom next := by
  unfold Driver.startTransfer at hstart
  cases hblock : setPidBlocked driver.sched driver.sched.currentPid with
  | none => simp [hblock] at hstart
  | some sched =>
      simp only [hblock] at hstart
      obtain rfl := Option.some.inj hstart
      obtain ⟨-, hlength⟩ := setPidBlocked_keeps hblock
      unfold HasRoom at *
      simp only [List.length_cons]
      omega

theorem advance_hasRoom {driver next : Driver} {esp : ℕ} (hinv : Inv driver)
    (hroom : HasRoom driver) (hadvance : driver.advance esp = some next) :
    HasRoom next := by
  unfold Driver.advance at hadvance
  cases hstage : driver.stage driver.sched.currentPid with
  | idle =>
      simp only [hstage] at hadvance
      obtain rfl := Option.some.inj hadvance
      exact hroom
  | acquiring request =>
      simp only [hstage, Driver.ataAcquirePrimaryLock] at hadvance
      split at hadvance
      · exact schedule_hasRoom hinv hroom hadvance
      · obtain rfl := Option.some.inj hadvance
        exact hroom
  | programming request =>
      simp only [hstage, Driver.program] at hadvance
      split at hadvance
      · obtain rfl := Option.some.inj hadvance
        exact hroom
      · exact startTransfer_hasRoom hroom hadvance
  | started =>
      simp only [hstage] at hadvance
      have hreturning : Unmoved driver (driver.setStage .returning) :=
        setStage_unmoved driver (by simp)
      exact schedule_hasRoom (hreturning.inv hinv) hroom hadvance
  | returning =>
      simp only [hstage] at hadvance
      obtain rfl := Option.some.inj hadvance
      exact hroom

theorem intHandler_hasRoom {driver next : Driver} {status : BitVec 8}
    (hinv : Inv driver) (hroom : HasRoom driver)
    (hhandler : driver.intHandler status = some next) : HasRoom next := by
  by_cases hbit : status &&& 0x4 = 0
  · rw [intHandler_of_spurious driver hbit] at hhandler
    obtain rfl := Option.some.inj hhandler
    exact hroom
  · rcases hinv with hquiet | ⟨transfer, hbusy⟩
    · rw [intHandler_of_quiet hquiet] at hhandler
      obtain rfl := Option.some.inj hhandler
      exact hroom
    · rw [intHandler_of_busy hbusy hbit] at hhandler
      have hended := endTransfer_ended hbusy hhandler
      unfold HasRoom at *
      rw [hbusy.inFlight, List.length_singleton] at hroom
      rw [hended.inFlight, hended.queueLength, List.length_nil]
      exact hroom

theorem step_hasRoom {driver next : Driver} {event : Event} (hinv : Inv driver)
    (hroom : HasRoom driver) (hstep : step driver event = some next) :
    HasRoom next := by
  cases event with
  | call request =>
      simp only [step] at hstep
      split at hstep
      · obtain rfl := Option.some.inj hstep
        unfold Driver.call
        split
        · exact hroom
        · exact hroom
      · obtain rfl := Option.some.inj hstep
        exact hroom
  | advance esp => exact advance_hasRoom hinv hroom hstep
  | timer esp => exact schedule_hasRoom hinv hroom hstep
  | interrupt status => exact intHandler_hasRoom hinv hroom hstep

/-! ## Every run -/

/-- In every state a run reaches the invariant holds, and there is room to
wake the waiting process if the queue was no longer than its array. -/
theorem run_inv {sched : SchedState} {events : List Event} {driver : Driver}
    (hrun : exec step (Driver.loaded sched) events = some driver) :
    Inv driver ∧ (sched.queueLength ≤ processCount → HasRoom driver) := by
  have hpreserve : ∀ driver event next,
      (Inv driver ∧ (sched.queueLength ≤ processCount → HasRoom driver)) →
      step driver event = some next →
      Inv next ∧ (sched.queueLength ≤ processCount → HasRoom next) := by
    rintro driver event next ⟨hinv, hroom⟩ hstep
    exact ⟨step_inv hinv hstep,
      fun hlength => step_hasRoom hinv (hroom hlength) hstep⟩
  have hloaded : sched.queueLength ≤ processCount →
      HasRoom (Driver.loaded sched) := by
    intro hlength
    simpa [HasRoom, Driver.loaded] using hlength
  exact exec_preserves hpreserve ⟨loaded_inv sched, hloaded⟩ hrun

theorem endTransfer_total {driver : Driver} {transfer : Transfer}
    (hbusy : Busy driver transfer) (hroom : HasRoom driver) :
    ∃ next, driver.endTransfer = some next := by
  have hlength : driver.sched.queueLength < processCount := by
    rw [HasRoom, hbusy.inFlight, List.length_singleton] at hroom
    omega
  obtain ⟨sched, hwake, -⟩ := addProcessQueue_of_lt
    (driver.sched.setProcess driver.transferringPid
      { driver.sched.processes driver.transferringPid with blocked := false })
    driver.transferringPid hlength
  have hunblocked : setPidUnblocked driver.sched driver.transferringPid =
      some sched := hwake
  simp [Driver.endTransfer, hunblocked]

/-- What the driver promises about a state.  The handler has a result
whenever the queue was no longer than its array at the start. -/
structure Protocol (roomAtStart : Prop) (driver : Driver) : Prop where
  atMostOne : driver.inFlight.length ≤ 1
  owned : ∀ transfer ∈ driver.inFlight,
    driver.primaryAtaLocked = 1 ∧ driver.transferringPid = transfer.pid ∧
      (driver.sched.processes transfer.pid).blocked = true
  completes : ∀ transfer ∈ driver.inFlight, ∀ status : BitVec 8,
    status &&& 0x4 ≠ 0 →
      (roomAtStart → ∃ next, driver.intHandler status = some next) ∧
      ∀ next, driver.intHandler status = some next → Ended driver next transfer
  spurious : ∀ status : BitVec 8, driver.inFlight = [] ∨ status &&& 0x4 = 0 →
    driver.intHandler status = some driver

/-- Every run of any number of processes and any interrupts keeps the
transfer protocol. -/
theorem ata_transfers_exclusive (sched : SchedState) (events : List Event)
    (driver : Driver)
    (hrun : exec step (Driver.loaded sched) events = some driver) :
    Protocol (sched.queueLength ≤ processCount) driver := by
  obtain ⟨hinv, hroom⟩ := run_inv hrun
  constructor
  · exact hinv.inFlight_length_le
  · intro transfer hmem
    rcases hinv with hquiet | ⟨only, hbusy⟩
    · simp [hquiet.inFlight] at hmem
    · obtain rfl : transfer = only := by simpa [hbusy.inFlight] using hmem
      exact ⟨hbusy.locked, hbusy.pid, hbusy.blocked⟩
  · intro transfer hmem status hbit
    rcases hinv with hquiet | ⟨only, hbusy⟩
    · simp [hquiet.inFlight] at hmem
    · obtain rfl : transfer = only := by simpa [hbusy.inFlight] using hmem
      rw [intHandler_of_busy hbusy hbit]
      exact ⟨fun hlength => endTransfer_total hbusy (hroom hlength),
        fun next hend => endTransfer_ended hbusy hend⟩
  · rintro status (hnone | hbit)
    · rcases hinv with hquiet | ⟨only, hbusy⟩
      · exact intHandler_of_quiet hquiet status
      · simp [hbusy.inFlight] at hnone
    · exact intHandler_of_spurious driver hbit

/-- Two processes in the queue, the first of them running. -/
def twoReaders : SchedState where
  processes _ := ⟨true, false, false, 0, 0, 0, 0⟩
  processQueue i := if i < 2 then i + 1 else 0
  activeProcesses := 2
  currentPid := 1
  queueLength := 2
  currentQueueIndex := 0

/-- The first process starts a transfer and yields; the second one finds the
lock taken. -/
def contended : List Event :=
  [.call ⟨.read, 0, 512⟩, .advance 0, .interrupt 0x4, .advance 0, .advance 0,
    .call ⟨.write, 0, 512⟩, .advance 0]

theorem ata_transfers_exclusive_contended :
    ∃ driver, exec step (Driver.loaded twoReaders) contended = some driver ∧
      driver.inFlight.map Transfer.pid = [1] ∧ driver.sched.currentPid = 2 ∧
      Protocol (twoReaders.queueLength ≤ processCount) driver :=
  ⟨_, rfl, rfl, rfl, ata_transfers_exclusive twoReaders contended _ rfl⟩

end KimisOS.Ata
