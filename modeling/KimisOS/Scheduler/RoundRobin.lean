import KimisOS.Scheduler.Queue

/-!
# Round robin

`schedule` moves one index through the queue and steps over the idle pid.  The
index may stand at the length of the queue, or anywhere beyond it after
removals; from there it starts over.  The number of calls until a position is
picked next falls with every call that picks another one.
-/

namespace KimisOS.Scheduler

open KimisOS.Run
open KimisOS.Entries

/-- What `schedule` returns: the registers of the process it picked, at the
stack pointer that was saved for it. -/
def newregs (sched : SchedState) : ℕ := (sched.processes sched.currentPid).esp

/-- `_irq_handler` for the timer, with the registers of the interrupted process
pushed at `regs`: it sets `regs->esp` to that address and goes on at the address
that `schedule` returns. -/
def irqHandler (sched : SchedState) (regs : ℕ) : Option (SchedState × ℕ) :=
  match schedule sched regs with
  | none => none
  | some next => some (next, newregs next)

/-- One timer interrupt. -/
def tick (sched : SchedState) (regs : ℕ) : Option SchedState :=
  (irqHandler sched regs).map Prod.fst

/-- A run of timer interrupts, one for each of the stack pointers, that ends in
`final`. -/
structure RoundRobin (sched : SchedState) (frames : List ℕ) (final : SchedState) :
    Prop where
  /-- The last call has picked a pid of the queue, and not the idle one. -/
  picks : frames ≠ [] → final.currentPid ∈ sched.queue ∧ final.currentPid ≠ 0
  /-- As many calls as the queue has entries pick every other pid. -/
  turns : ∀ before window, frames = before ++ window →
    window.length = sched.queueLength → ∀ pid ∈ sched.queue, pid ≠ 0 →
      ∃ part rest picked, window = part ++ rest ∧ part ≠ [] ∧
        exec tick sched (before ++ part) = some picked ∧ picked.currentPid = pid
  /-- The process goes on where it was interrupted last. -/
  resumes : ∀ before regs between out, frames = before ++ regs :: between →
    exec tick sched before = some out → out.currentPid = final.currentPid →
    (∀ part rest mid, between = part ++ rest → rest ≠ [] →
      exec tick sched (before ++ regs :: part) = some mid →
      mid.currentPid ≠ final.currentPid) →
    newregs final = regs

variable {sched next final : SchedState}

/-! ## One call -/

theorem tick_eq (hlength : 2 ≤ sched.queueLength) (regs : ℕ) :
    tick sched regs = some
      { sched.setProcess sched.currentPid
          { sched.processes sched.currentPid with esp := regs } with
        currentQueueIndex := nextQueueIndex sched
        currentPid := sched.processQueue (nextQueueIndex sched % sched.queueLength) } := by
  have hidle : addIdle sched = some sched := if_neg (by omega)
  simp only [tick, irqHandler, schedule, hidle, Option.map_some]

/-- A call looks at one position: the next one, or the first when there is none.
It goes one further from the idle pid. -/
theorem nextQueueIndex_eq (sched : SchedState) (hlength : 2 ≤ sched.queueLength) :
    ∃ index < sched.queueLength,
      (index = 0 ∧ sched.queueLength ≤ sched.currentQueueIndex + 1 ∨
        index = sched.currentQueueIndex + 1) ∧
      nextQueueIndex sched = if sched.processQueue index = 0 then index + 1 else index := by
  by_cases hround : sched.currentQueueIndex + 1 ≥ sched.queueLength
  · refine ⟨0, by omega, .inl ⟨rfl, hround⟩, ?_⟩
    have hsome : sched.queueLength > 1 := by omega
    simp [nextQueueIndex, hround, hsome]
  · refine ⟨sched.currentQueueIndex + 1, by omega, .inr rfl, ?_⟩
    have hsome : sched.queueLength > 1 := by omega
    have hmod : (sched.currentQueueIndex + 1) % sched.queueLength =
        sched.currentQueueIndex + 1 := Nat.mod_eq_of_lt (by omega)
    simp [nextQueueIndex, hround, hsome, hmod]

/-- No pid is queued twice. -/
theorem position_unique (hnodup : sched.queue.Nodup) {i j : ℕ}
    (hi : i < sched.queueLength) (hj : j < sched.queueLength)
    (hsame : sched.processQueue i = sched.processQueue j) : i = j := by
  have hinj := List.inj_on_of_nodup_map hnodup
  exact hinj (List.mem_range.mpr hi) (List.mem_range.mpr hj) hsame

/-- The idle pid is stepped over, from the end of the queue to its start. -/
theorem picked_ne_zero (hlength : 2 ≤ sched.queueLength) (hnodup : sched.queue.Nodup) :
    sched.processQueue (nextQueueIndex sched % sched.queueLength) ≠ 0 := by
  obtain ⟨index, hindex, -, hnext⟩ := nextQueueIndex_eq sched hlength
  rw [hnext]
  split
  next hidle =>
    intro hagain
    have hsame := position_unique hnodup (Nat.mod_lt (index + 1) (by omega)) hindex
      (hagain.trans hidle.symm)
    by_cases hend : index + 1 = sched.queueLength
    · rw [hend, Nat.mod_self] at hsame
      omega
    · rw [Nat.mod_eq_of_lt (by omega)] at hsame
      omega
  next hbusy => rwa [Nat.mod_eq_of_lt hindex]

/-- How many calls it takes at most until the position is picked. -/
def callsUntil (sched : SchedState) (position : ℕ) : ℕ :=
  if sched.currentQueueIndex < position then position - sched.currentQueueIndex
  else sched.queueLength - 1 - sched.currentQueueIndex + 1 + position

theorem callsUntil_le {position : ℕ} (hposition : position < sched.queueLength) :
    callsUntil sched position ≤ sched.queueLength := by
  rw [callsUntil]
  split <;> omega

/-- A call picks the position or brings it closer. -/
theorem picked_or_closer (hlength : 2 ≤ sched.queueLength) {position : ℕ}
    (hposition : position < sched.queueLength) (hbusy : sched.processQueue position ≠ 0)
    (hnext : next.currentQueueIndex = nextQueueIndex sched)
    (hsame : next.queueLength = sched.queueLength) :
    nextQueueIndex sched % sched.queueLength = position ∨
      callsUntil next position < callsUntil sched position := by
  obtain ⟨index, hindex, hfrom, hpicked⟩ := nextQueueIndex_eq sched hlength
  rw [callsUntil, callsUntil, hnext, hsame, hpicked]
  by_cases hidle : sched.processQueue index = 0
  · have hother : index ≠ position := by
      intro heq
      exact hbusy (heq ▸ hidle)
    rw [if_pos hidle]
    by_cases hend : index + 1 = sched.queueLength
    · rw [hend, Nat.mod_self]
      split <;> split <;> omega
    · rw [Nat.mod_eq_of_lt (by omega)]
      split <;> split <;> omega
  · rw [if_neg hidle, Nat.mod_eq_of_lt hindex]
    split <;> split <;> omega

/-! ## Runs -/

/-- What no call changes. -/
structure SameQueue (sched next : SchedState) : Prop where
  processQueue : next.processQueue = sched.processQueue
  queueLength : next.queueLength = sched.queueLength

theorem SameQueue.queue (hsame : SameQueue sched next) : next.queue = sched.queue := by
  rw [SchedState.queue, SchedState.queue, hsame.processQueue, hsame.queueLength]

/-- What one call does. -/
structure Ticked (sched next : SchedState) (regs : ℕ) : Prop where
  same : SameQueue sched next
  index : next.currentQueueIndex = nextQueueIndex sched
  pid : next.currentPid = sched.processQueue (nextQueueIndex sched % sched.queueLength)
  saved : (next.processes sched.currentPid).esp = regs
  others : ∀ pid, pid ≠ sched.currentPid → next.processes pid = sched.processes pid

theorem tick_spec (hlength : 2 ≤ sched.queueLength) (regs : ℕ) :
    ∃ next, tick sched regs = some next ∧ Ticked sched next regs := by
  refine ⟨_, tick_eq hlength regs, ⟨rfl, rfl⟩, rfl, rfl, ?_, ?_⟩
  · simp [SchedState.setProcess]
  · intro pid hpid
    simp [SchedState.setProcess, hpid]

/-- The run rule: every run has a last state, over the same queue. -/
theorem exec_tick (hlength : 2 ≤ sched.queueLength) (frames : List ℕ) :
    ∃ final, exec tick sched frames = some final ∧ SameQueue sched final := by
  have hprogress : ∀ state regs, SameQueue sched state → True →
      ∃ next, tick state regs = some next ∧ SameQueue sched next := by
    intro state regs hstate _
    obtain ⟨next, htick, hticked⟩ :=
      @tick_spec state (by rw [hstate.queueLength]; exact hlength) regs
    exact ⟨next, htick, hticked.same.processQueue.trans hstate.processQueue,
      hticked.same.queueLength.trans hstate.queueLength⟩
  exact exec_total hprogress ⟨rfl, rfl⟩
    (meets_of_forall (fun _ _ => trivial) sched frames)

theorem SameQueue.tick (hlength : 2 ≤ sched.queueLength) (hsame : SameQueue sched next)
    {regs : ℕ} (htick : tick next regs = some final) : Ticked next final regs := by
  obtain ⟨other, hother, hticked⟩ :=
    @tick_spec next (by rw [hsame.queueLength]; exact hlength) regs
  rw [htick] at hother
  rwa [Option.some.inj hother]

theorem exec_sameQueue (hlength : 2 ≤ sched.queueLength) {frames : List ℕ}
    (hrun : exec tick sched frames = some final) : SameQueue sched final := by
  obtain ⟨other, hother, hsame⟩ := exec_tick hlength frames
  rw [hrun] at hother
  rwa [Option.some.inj hother]

/-- Enough calls pick the position. -/
theorem exec_picks (hlength : 2 ≤ sched.queueLength) {position : ℕ}
    (hposition : position < sched.queueLength) (hbusy : sched.processQueue position ≠ 0)
    {frames : List ℕ} (hframes : callsUntil sched position ≤ frames.length)
    (hsome : frames ≠ []) :
    ∃ part rest picked, frames = part ++ rest ∧ part ≠ [] ∧
      exec tick sched part = some picked ∧
      picked.currentPid = sched.processQueue position := by
  induction frames generalizing sched with
  | nil => exact absurd rfl hsome
  | cons regs frames ih =>
      obtain ⟨next, htick, hticked⟩ := tick_spec hlength regs
      rcases picked_or_closer hlength hposition hbusy hticked.index
        hticked.same.queueLength with hpicked | hcloser
      · refine ⟨[regs], frames, next, rfl, List.cons_ne_nil _ _, ?_, ?_⟩
        · rw [exec_cons_eq_some]
          exact ⟨next, htick, rfl⟩
        · rw [hticked.pid, hpicked]
      · have hlength' : 2 ≤ next.queueLength := by rwa [hticked.same.queueLength]
        have hpositive : 0 < callsUntil next position := by
          rw [callsUntil]
          split <;> omega
        rw [List.length_cons] at hframes
        have hmore : frames ≠ [] := by
          rintro rfl
          rw [List.length_nil] at hframes
          omega
        obtain ⟨part, rest, picked, rfl, -, hrun, hpid⟩ :=
          ih hlength' (by rwa [hticked.same.queueLength])
            (by rwa [hticked.same.processQueue]) (by omega) hmore
        refine ⟨regs :: part, rest, picked, rfl, List.cons_ne_nil _ _, ?_, ?_⟩
        · exact exec_cons_eq_some.mpr ⟨next, htick, hrun⟩
        · rw [hpid, hticked.same.processQueue]

/-- Calls that interrupt other processes leave the saved registers alone. -/
theorem exec_keeps_saved (hlength : 2 ≤ sched.queueLength) {pid : ℕ} {frames : List ℕ}
    (hothers : ∀ part rest mid, frames = part ++ rest → rest ≠ [] →
      exec tick sched part = some mid → mid.currentPid ≠ pid)
    (hrun : exec tick sched frames = some final) :
    final.processes pid = sched.processes pid := by
  induction frames generalizing sched with
  | nil =>
      obtain rfl : sched = final := by simpa using hrun
      rfl
  | cons regs frames ih =>
      obtain ⟨next, htick, hrest⟩ := exec_cons_eq_some.mp hrun
      have hticked := (SameQueue.mk rfl rfl : SameQueue sched sched).tick hlength htick
      have hother := hothers [] _ sched rfl (List.cons_ne_nil _ _) rfl
      have hlength' : 2 ≤ next.queueLength := by rwa [hticked.same.queueLength]
      rw [ih hlength' ?_ hrest, hticked.others pid hother.symm]
      rintro part rest mid rfl hne hmid
      exact hothers (regs :: part) rest mid rfl hne (exec_cons_eq_some.mpr ⟨next, htick, hmid⟩)

/-- Round robin.  In every run of timer interrupts over a queue of two or more
pids, none of them twice, each call picks a pid of the queue that is not the idle
one, as many calls as there are entries pick all the others, and a process that
is picked again goes on with the stack pointer saved when it was interrupted
last. -/
theorem schedule_roundRobin (sched : SchedState) (hlength : 2 ≤ sched.queueLength)
    (hnodup : sched.queue.Nodup) (frames : List ℕ) :
    ∃ final, exec tick sched frames = some final ∧ final.queue = sched.queue ∧
      RoundRobin sched frames final := by
  obtain ⟨final, hrun, hsame⟩ := exec_tick hlength frames
  refine ⟨final, hrun, hsame.queue, ?_, ?_, ?_⟩
  · intro hsome
    obtain ⟨before, regs, rfl⟩ : ∃ before regs, frames = before ++ [regs] :=
      ⟨_, _, (List.dropLast_append_getLast hsome).symm⟩
    obtain ⟨mid, hmid, hlast⟩ := exec_append_eq_some.mp hrun
    obtain ⟨next, htick, hnil⟩ := exec_cons_eq_some.mp hlast
    obtain rfl : next = final := by simpa using hnil
    have hkept := exec_sameQueue hlength hmid
    have hticked := hkept.tick hlength htick
    have hlength' : 2 ≤ mid.queueLength := by rwa [hkept.queueLength]
    rw [hticked.pid, ← hkept.queue]
    exact ⟨mem_entries.mpr ⟨_, Nat.mod_lt _ (by omega), rfl⟩,
      picked_ne_zero hlength' (by rwa [hkept.queue])⟩
  · rintro before window rfl hwindow pid hpid hbusy
    obtain ⟨mid, hmid, -⟩ := exec_append_eq_some.mp hrun
    have hkept := exec_sameQueue hlength hmid
    obtain ⟨position, hposition, rfl⟩ := mem_entries.mp hpid
    have hlength' : 2 ≤ mid.queueLength := by rwa [hkept.queueLength]
    have hposition' : position < mid.queueLength := by rwa [hkept.queueLength]
    have hsome : window ≠ [] := by
      rintro rfl
      rw [List.length_nil] at hwindow
      omega
    obtain ⟨part, rest, picked, hparts, hne, hpart, hpicked⟩ :=
      exec_picks hlength' hposition' (by rwa [hkept.processQueue])
        (by rw [hwindow, ← hkept.queueLength]; exact callsUntil_le hposition') hsome
    refine ⟨part, rest, picked, hparts, hne, ?_, by rw [hpicked, hkept.processQueue]⟩
    exact exec_append_eq_some.mpr ⟨mid, hmid, hpart⟩
  · rintro before regs between out rfl hout hpid hothers
    obtain ⟨out', hout', hrest⟩ := exec_append_eq_some.mp hrun
    obtain rfl : out = out' := Option.some.inj (hout.symm.trans hout')
    obtain ⟨next, htick, hbetween⟩ := exec_cons_eq_some.mp hrest
    have hkept := exec_sameQueue hlength hout
    have hticked := hkept.tick hlength htick
    have hlength' : 2 ≤ next.queueLength := by
      rwa [hticked.same.queueLength, hkept.queueLength]
    have hsaved : final.processes final.currentPid = next.processes final.currentPid := by
      refine exec_keeps_saved hlength' ?_ hbetween
      intro part rest mid hparts hne hmid
      exact hothers part rest mid hparts hne
        (exec_append_eq_some.mpr ⟨out, hout, exec_cons_eq_some.mpr ⟨next, htick, hmid⟩⟩)
    rw [newregs, hsaved, ← hpid]
    exact hticked.saved

/-- Three entries with the idle pid at the end, and an index beyond them. -/
def threeQueued : SchedState where
  processes := fun pid => ⟨true, false, false, 0, 0, 0, pid⟩
  processQueue := fun i => if i = 0 then 4 else if i = 1 then 9 else 0
  activeProcesses := 2
  currentPid := 9
  queueLength := 3
  currentQueueIndex := 7

theorem schedule_roundRobin_threeQueued :
    ∃ final, exec tick threeQueued [100, 200, 300, 400] = some final ∧
      final.queue = threeQueued.queue ∧
      RoundRobin threeQueued [100, 200, 300, 400] final :=
  schedule_roundRobin threeQueued (by decide) (by decide) [100, 200, 300, 400]

end KimisOS.Scheduler
