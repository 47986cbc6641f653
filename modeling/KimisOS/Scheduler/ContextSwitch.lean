import KimisOS.Core.Words
import KimisOS.Scheduler.RoundRobin

/-!
# Interrupts switch the stack, not the registers

Every interrupt pushes the registers of the process that it interrupts on the
stack of that process, and what it pops at its end is the frame at the address
that the handler has returned.  `schedule` saves that address for one process
and returns the one it has saved for another.  So the registers that a process
goes on with are those it had when it was interrupted, whatever has run in
between.
-/

namespace KimisOS.ContextSwitch

open KimisOS.Run
open KimisOS.Words
open KimisOS.ByteStore
open KimisOS.Scheduler

/-- The registers of the processor. -/
structure Cpu where
  eax : UInt32
  ecx : UInt32
  edx : UInt32
  ebx : UInt32
  esp : UInt32
  ebp : UInt32
  esi : UInt32
  edi : UInt32
  eip : UInt32
  eflags : UInt32
  cs : UInt16
  ds : UInt16
  es : UInt16
  fs : UInt16
  gs : UInt16
  ss : UInt16
  deriving DecidableEq

/-- The privilege level in `cs`. -/
def Cpu.UserMode (cpu : Cpu) : Prop := cpu.cs.toNat % 4 = 3

instance (cpu : Cpu) : Decidable cpu.UserMode := inferInstanceAs (Decidable (_ = _))

def kernelData : UInt16 := 0x18

/-- The bytes of `cpu_registers_t`. -/
def registersSize : ℕ := 76

/-- What the processor pushes for an interrupt; out of user mode the old stack comes
first. -/
def Cpu.pushedByProcessor (cpu : Cpu) : List UInt32 :=
  (if cpu.UserMode then [cpu.ss.toUInt32, cpu.esp] else []) ++
    [cpu.eflags, cpu.cs.toUInt32, cpu.eip]

/-- What the stub of the interrupt and `_irq_common_stub` push: a zero for the error
code, the number, `pushad` and the segments. -/
def Cpu.pushedByStub (cpu : Cpu) (intNo esp : UInt32) : List UInt32 :=
  [0, intNo, cpu.eax, cpu.ecx, cpu.edx, cpu.ebx, esp, cpu.ebp, cpu.esi, cpu.edi,
    cpu.ds.toUInt32, cpu.es.toUInt32, cpu.fs.toUInt32, cpu.gs.toUInt32]

/-- The stack that an interrupt uses: that of the process, or out of user mode the one
in the task state segment. -/
def Cpu.interruptStack (cpu : Cpu) (esp0 : ℕ) : ℕ :=
  if cpu.UserMode then esp0 else cpu.esp.toNat

/-- From the interrupt to the call of `_irq_handler`: the memory, and the address of the
pushed registers.  `pushad` pushes the stack pointer from before it. -/
def enter (cpu : Cpu) (esp0 : ℕ) (intNo : ℕ) (mem : ℕ → UInt8) : (ℕ → UInt8) × ℕ :=
  let pushed := pushAll mem (cpu.interruptStack esp0) cpu.pushedByProcessor
  pushAll pushed.1 pushed.2
    (cpu.pushedByStub (UInt32.ofNat intNo) (UInt32.ofNat ((pushed.2 + 2 ^ 32 - 8) % 2 ^ 32)))

/-- The handler has the stack below the registers: `push esp`, the call and the calls that
`_irq_handler` makes leave these bytes there. -/
def useStack (mem : ℕ → UInt8) (regs : ℕ) (below : List UInt8) : ℕ → UInt8 :=
  store mem (regs - below.length) (fun k => below.getD k 0) below.length

/-- From the return of `_irq_handler` to the end of the interrupt: the registers are
popped at the returned address, with `ss` only on the way to user mode. -/
def leave (mem : ℕ → UInt8) (regs : ℕ) (ss : UInt16) : Cpu :=
  let word (k : ℕ) : UInt32 := wordAt mem (regs + 4 * k)
  { gs := (word 0).toUInt16
    fs := (word 1).toUInt16
    es := (word 2).toUInt16
    ds := (word 3).toUInt16
    edi := word 4
    esi := word 5
    ebp := word 6
    ebx := word 8
    edx := word 9
    ecx := word 10
    eax := word 11
    eip := word 14
    cs := (word 15).toUInt16
    eflags := word 16
    esp := if (word 15).toUInt16.toNat % 4 = 3 then word 17 else UInt32.ofNat (regs + 68)
    ss := if (word 15).toUInt16.toNat % 4 = 3 then (word 18).toUInt16 else ss }

/-! ## What is installed for an interrupt -/

/-- The scheduler, or the handler of a device: it returns the registers it is called
with, and may have unblocked a process. -/
inductive Handler where
  | schedule
  | device
  deriving DecidableEq

structure Machine where
  sched : SchedState
  cpu : Cpu
  mem : ℕ → UInt8
  esp0 : ℕ
  handlers : ℕ → Option Handler

def runHandler (handler : Handler) (woken : Option ℕ) (sched : SchedState) (regs : ℕ) :
    Option (SchedState × ℕ) :=
  match handler with
  | .schedule => Scheduler.irqHandler sched regs
  | .device =>
      match woken with
      | none => some (sched, regs)
      | some pid => (setPidUnblocked sched pid).map fun sched => (sched, regs)

/-- `_irq_handler` for the lines of the interrupt controllers: the handler of the line,
and then that of the timer, if the line is another one. -/
def irqHandler (handlers : ℕ → Option Handler) (woken : Option ℕ) (sched : SchedState)
    (line regs : ℕ) : Option (SchedState × ℕ) :=
  match handlers line with
  | none => some (sched, regs)
  | some handler =>
      match runHandler handler woken sched regs with
      | none => none
      | some result =>
          if 0 < line then
            match handlers 0 with
            | none => some result
            | some timer => runHandler timer none result.1 result.2
          else some result

/-- What `thread_start` puts at the end of the stack it has allocated. -/
def firstRegisters (function frame : UInt32) : List UInt32 :=
  [0, 0, 0x18, 0x18, 0, 0, frame, frame, 0, 0, 0, 0, 0, 0, function, 0x10, 0x202, 0, 0x18]

/-- The address of these registers: eight pages, less a word and the registers. -/
def firstFrame (stack : ℕ) : ℕ := stack + 8 * 4096 - 4 - registersSize

/-! ## Events -/

inductive Event where
  /-- The current process has computed. -/
  | run (cpu : Cpu) (mem : ℕ → UInt8)
  /-- An interrupt, with what its handler leaves on the stack. -/
  | irq (line : ℕ) (woken : Option ℕ) (below : List UInt8)
  /-- A module installs its handler, or removes it. -/
  | installIrqHandler (installed : Bool) (line : ℕ)
  /-- `thread_start`, with the stack that `kmalloc` returns. -/
  | threadStart (function : UInt32) (stack : ℕ)
  | block (pid : ℕ)
  | unblock (pid : ℕ)
  | kill (pid : ℕ)

def step (machine : Machine) : Event → Option Machine
  | .run cpu mem => some { machine with cpu := cpu, mem := mem }
  | .irq line woken below =>
      let entered := enter machine.cpu machine.esp0 (32 + line) machine.mem
      let mem := useStack (writeU32 entered.1 (entered.2 + 28) entered.2) entered.2 below
      let ss := if machine.cpu.UserMode then kernelData else machine.cpu.ss
      (irqHandler machine.handlers woken machine.sched line entered.2).map fun result =>
        { machine with
          sched := result.1
          cpu := leave mem result.2 ss
          mem := mem
          esp0 := result.2 }
  | .installIrqHandler installed line =>
      let handler := if installed then some Handler.device else none
      some { machine with handlers := Function.update machine.handlers line handler }
  | .threadStart function stack =>
      let frame := firstFrame stack
      match spawnNewProcess machine.sched frame 0x10000 with
      | none => none
      | some (_, none) => none
      | some (sched, some pid) =>
          some { machine with
            sched := sched.setProcess pid
              { sched.processes pid with parent := sched.currentPid }
            mem := storeWords machine.mem frame
              (firstRegisters function (UInt32.ofNat frame)) }
  | .block pid => (setPidBlocked machine.sched pid).map fun sched => { machine with sched := sched }
  | .unblock pid =>
      (setPidUnblocked machine.sched pid).map fun sched => { machine with sched := sched }
  | .kill pid =>
      (Scheduler.kill machine.sched pid).map fun sched => { machine with sched := sched }

/-! ## The frame of an interrupt -/

/-- How many bytes an interrupt pushes. -/
def Cpu.frameSize (cpu : Cpu) : ℕ := if cpu.UserMode then registersSize else 68

section Frame

variable {cpu : Cpu} {mem mem' : ℕ → UInt8} {esp0 intNo regs : ℕ} {ss : UInt16}

def Cpu.pushed (cpu : Cpu) (intNo esp : UInt32) : List UInt32 :=
  cpu.pushedByProcessor ++ cpu.pushedByStub intNo esp

theorem Cpu.length_pushed (cpu : Cpu) (intNo esp : UInt32) :
    4 * (cpu.pushed intNo esp).length = cpu.frameSize := by
  rw [Cpu.pushed, Cpu.pushedByProcessor, Cpu.frameSize, registersSize]
  by_cases huser : cpu.UserMode
  · rw [if_pos huser, if_pos huser]
    rfl
  · rw [if_neg huser, if_neg huser]
    rfl

/-- The pushes of an interrupt as one list. -/
theorem enter_eq (cpu : Cpu) (esp0 intNo : ℕ) (mem : ℕ → UInt8) :
    ∃ esp, enter cpu esp0 intNo mem =
      pushAll mem (cpu.interruptStack esp0) (cpu.pushed (UInt32.ofNat intNo) esp) := by
  refine ⟨UInt32.ofNat (((pushAll mem (cpu.interruptStack esp0)
    cpu.pushedByProcessor).2 + 2 ^ 32 - 8) % 2 ^ 32), ?_⟩
  rw [Cpu.pushed, pushAll_append]
  rfl

theorem enter_snd (hroom : cpu.frameSize ≤ cpu.interruptStack esp0)
    (hstack : cpu.interruptStack esp0 < 2 ^ 32) :
    (enter cpu esp0 intNo mem).2 = cpu.interruptStack esp0 - cpu.frameSize := by
  obtain ⟨esp, henter⟩ := enter_eq cpu esp0 intNo mem
  have hlength := cpu.length_pushed (UInt32.ofNat intNo) esp
  rw [henter, pushAll_esp (hlength.trans_le hroom) hstack, hlength]

theorem enter_outside (hroom : cpu.frameSize ≤ cpu.interruptStack esp0)
    (hstack : cpu.interruptStack esp0 < 2 ^ 32) {a : ℕ}
    (ha : a < cpu.interruptStack esp0 - cpu.frameSize ∨ cpu.interruptStack esp0 ≤ a) :
    (enter cpu esp0 intNo mem).1 a = mem a := by
  obtain ⟨esp, henter⟩ := enter_eq cpu esp0 intNo mem
  have hlength := cpu.length_pushed (UInt32.ofNat intNo) esp
  rw [henter]
  exact pushAll_outside (hlength.trans_le hroom) hstack (hlength.symm ▸ ha)

theorem wordAt_enter (hroom : cpu.frameSize ≤ cpu.interruptStack esp0)
    (hstack : cpu.interruptStack esp0 < 2 ^ 32) :
    ∃ esp, ∀ k word, (cpu.pushed (UInt32.ofNat intNo) esp).reverse[k]? = some word →
      wordAt (enter cpu esp0 intNo mem).1
        (cpu.interruptStack esp0 - cpu.frameSize + 4 * k) = word := by
  obtain ⟨esp, henter⟩ := enter_eq cpu esp0 intNo mem
  have hlength := cpu.length_pushed (UInt32.ofNat intNo) esp
  refine ⟨esp, ?_⟩
  intro k word hword
  rw [henter, ← hlength]
  exact wordAt_pushAll (hlength.trans_le hroom) hstack hword

/-- What is popped depends on the frame only. -/
theorem leave_congr (hsame : ∀ a, regs ≤ a → a < regs + (leave mem regs ss).frameSize →
      mem' a = mem a) : leave mem' regs ss = leave mem regs ss := by
  have hsize : 68 ≤ (leave mem regs ss).frameSize := by
    rw [Cpu.frameSize, registersSize]
    split <;> omega
  have hword : ∀ k, 4 * k + 4 ≤ (leave mem regs ss).frameSize →
      wordAt mem' (regs + 4 * k) = wordAt mem (regs + 4 * k) := by
    intro k hk
    apply wordAt_congr
    intro i hi
    exact hsame _ (by omega) (by omega)
  have hlow : ∀ k < 17, wordAt mem' (regs + 4 * k) = wordAt mem (regs + 4 * k) := by
    intro k hk
    exact hword k (by omega)
  by_cases huser : (wordAt mem (regs + 4 * 15)).toUInt16.toNat % 4 = 3
  · have hframe : (leave mem regs ss).frameSize = 76 := if_pos huser
    have h17 := hword 17 (by omega)
    have h18 := hword 18 (by omega)
    simp only [leave, hlow 0 (by decide), hlow 1 (by decide), hlow 2 (by decide),
      hlow 3 (by decide), hlow 4 (by decide), hlow 5 (by decide), hlow 6 (by decide),
      hlow 8 (by decide), hlow 9 (by decide), hlow 10 (by decide), hlow 11 (by decide),
      hlow 14 (by decide), hlow 15 (by decide), hlow 16 (by decide), h17, h18]
  · simp only [leave, hlow 0 (by decide), hlow 1 (by decide), hlow 2 (by decide),
      hlow 3 (by decide), hlow 4 (by decide), hlow 5 (by decide), hlow 6 (by decide),
      hlow 8 (by decide), hlow 9 (by decide), hlow 10 (by decide), hlow 11 (by decide),
      hlow 14 (by decide), hlow 15 (by decide), hlow 16 (by decide), if_neg huser]

theorem useStack_outside {below : List UInt8} (hroom : below.length ≤ regs) {a : ℕ}
    (ha : a < regs - below.length ∨ regs ≤ a) : useStack mem regs below a = mem a :=
  store_outside (by omega)

/-- The registers at the time of the interrupt are popped again, although the handler
has stored the address of the frame in the place of `esp`. -/
theorem leave_enter (hroom : cpu.frameSize ≤ cpu.interruptStack esp0)
    (hstack : cpu.interruptStack esp0 < 2 ^ 32) (hss : ¬cpu.UserMode → cpu.ss = ss)
    (hregs : regs = cpu.interruptStack esp0 - cpu.frameSize) (value : ℕ) :
    leave (writeU32 (enter cpu esp0 intNo mem).1 (regs + 28) value) regs ss = cpu := by
  subst hregs
  obtain ⟨esp, hpushed⟩ := @wordAt_enter cpu mem esp0 intNo hroom hstack
  have hword : ∀ k word, k ≠ 7 →
      (cpu.pushed (UInt32.ofNat intNo) esp).reverse[k]? = some word →
      wordAt (writeU32 (enter cpu esp0 intNo mem).1
        (cpu.interruptStack esp0 - cpu.frameSize + 28) value)
        (cpu.interruptStack esp0 - cpu.frameSize + 4 * k) = word := by
    intro k word hk hat
    rw [← hpushed k word hat, wordAt, wordAt, readU32_writeU32_of_disjoint (by omega)]
  generalize writeU32 _ _ _ = mem' at hword ⊢
  generalize hframe : cpu.interruptStack esp0 - cpu.frameSize = regs at hword ⊢
  rw [Cpu.pushed, Cpu.pushedByProcessor] at hword
  by_cases huser : cpu.UserMode
  · rw [if_pos huser] at hword
    simp only [leave, hword 0 _ (by decide) rfl, hword 1 _ (by decide) rfl,
      hword 2 _ (by decide) rfl, hword 3 _ (by decide) rfl, hword 4 _ (by decide) rfl,
      hword 5 _ (by decide) rfl, hword 6 _ (by decide) rfl, hword 8 _ (by decide) rfl,
      hword 9 _ (by decide) rfl, hword 10 _ (by decide) rfl, hword 11 _ (by decide) rfl,
      hword 14 _ (by decide) rfl, hword 15 _ (by decide) rfl, hword 16 _ (by decide) rfl,
      hword 17 _ (by decide) rfl, hword 18 _ (by decide) rfl, UInt16.toUInt16_toUInt32]
    have hlevel : cpu.cs.toNat % 4 = 3 := huser
    rw [if_pos hlevel, if_pos hlevel]
  · rw [if_neg huser] at hword
    have hlevel : ¬cpu.cs.toNat % 4 = 3 := huser
    have hesp : UInt32.ofNat (regs + 68) = cpu.esp := by
      rw [Cpu.interruptStack, if_neg huser, Cpu.frameSize, if_neg huser] at hframe hroom
      rw [← hframe, Nat.sub_add_cancel hroom, UInt32.ofNat_toNat]
    simp only [leave, hword 0 _ (by decide) rfl, hword 1 _ (by decide) rfl,
      hword 2 _ (by decide) rfl, hword 3 _ (by decide) rfl, hword 4 _ (by decide) rfl,
      hword 5 _ (by decide) rfl, hword 6 _ (by decide) rfl, hword 8 _ (by decide) rfl,
      hword 9 _ (by decide) rfl, hword 10 _ (by decide) rfl, hword 11 _ (by decide) rfl,
      hword 14 _ (by decide) rfl, hword 15 _ (by decide) rfl, hword 16 _ (by decide) rfl,
      UInt16.toUInt16_toUInt32, hesp]
    rw [if_neg hlevel, if_neg hlevel, ← hss huser]

/-- What a new process starts with. -/
def firstCpu (function frame : UInt32) : Cpu where
  eax := 0
  ecx := 0
  edx := 0
  ebx := 0
  esp := frame + 68
  ebp := frame
  esi := 0
  edi := 0
  eip := function
  eflags := 0x202
  cs := 0x10
  ds := 0x18
  es := 0x18
  fs := 0
  gs := 0
  ss := kernelData

theorem leave_firstRegisters (mem : ℕ → UInt8) (function : UInt32) (frame : ℕ) :
    leave (storeWords mem frame (firstRegisters function (UInt32.ofNat frame))) frame
      kernelData = firstCpu function (UInt32.ofNat frame) := by
  have hword : ∀ k word,
      (firstRegisters function (UInt32.ofNat frame))[k]? = some word →
      wordAt (storeWords mem frame (firstRegisters function (UInt32.ofNat frame)))
        (frame + 4 * k) = word := fun k word => wordAt_storeWords
  simp only [leave, hword 0 _ rfl, hword 1 _ rfl, hword 2 _ rfl, hword 3 _ rfl,
    hword 4 _ rfl, hword 5 _ rfl, hword 6 _ rfl, hword 8 _ rfl, hword 9 _ rfl,
    hword 10 _ rfl, hword 11 _ rfl, hword 14 _ rfl, hword 15 _ rfl, hword 16 _ rfl]
  rw [if_neg (by decide), if_neg (by decide), UInt32.ofNat_add]
  rfl

end Frame

/-! ## What the scheduler and the handlers change -/

section Handlers

variable {sched next last : SchedState} {regs out : ℕ}

/-- Only existing processes are queued, the idle one exists, and the queue fits. -/
structure Sound (sched : SchedState) : Prop where
  queued : ∀ pid ∈ sched.queue, (sched.processes pid).present = true
  length : sched.queueLength ≤ processCount

/-- The process that goes on does so at its saved registers, or at those of the
interrupt; the one that stops is saved. -/
structure Switched (sched : SchedState) (regs : ℕ) (next : SchedState) (out : ℕ) :
    Prop where
  sound : Sound next
  present : ∀ pid, (next.processes pid).present = (sched.processes pid).present
  current : next.currentPid = sched.currentPid ∨
    (sched.processes next.currentPid).present = true
  resumed : out = if next.currentPid = sched.currentPid then regs
    else (sched.processes next.currentPid).esp
  saved : next.currentPid ≠ sched.currentPid →
    (next.processes sched.currentPid).esp = regs
  others : ∀ pid, pid ≠ sched.currentPid → pid ≠ next.currentPid →
    (next.processes pid).esp = (sched.processes pid).esp

theorem Switched.refl (hsound : Sound sched) (regs : ℕ) :
    Switched sched regs sched regs := by
  refine ⟨hsound, fun _ => rfl, .inl rfl, (if_pos rfl).symm, ?_, fun _ _ _ => rfl⟩
  intro hne
  exact absurd rfl hne

/-- The handler of a line and that of the timer, one after the other. -/
theorem Switched.trans {middle : ℕ} (hfirst : Switched sched regs next middle)
    (hsecond : Switched next middle last out) : Switched sched regs last out := by
  have hfirstResumed := hfirst.resumed
  have hsecondResumed := hsecond.resumed
  refine ⟨hsecond.sound, fun pid => (hsecond.present pid).trans (hfirst.present pid),
    ?_, ?_, ?_, ?_⟩
  · rcases hsecond.current with hsame | hpresent
    · rw [hsame]
      exact hfirst.current
    · exact .inr ((hfirst.present _).symm.trans hpresent)
  · by_cases hback : last.currentPid = next.currentPid
    · rw [if_pos hback, hfirstResumed] at hsecondResumed
      rw [hsecondResumed, hback]
    · rw [if_neg hback] at hsecondResumed
      by_cases hhome : last.currentPid = sched.currentPid
      · rw [if_pos hhome, hsecondResumed, hhome]
        exact hfirst.saved (hhome ▸ Ne.symm hback)
      · rw [if_neg hhome, hsecondResumed]
        exact hfirst.others _ hhome hback
  · intro haway
    by_cases hstayed : next.currentPid = sched.currentPid
    · rw [if_pos hstayed] at hfirstResumed
      rw [← hstayed, ← hfirstResumed]
      exact hsecond.saved (hstayed ▸ haway)
    · rw [hsecond.others _ (Ne.symm hstayed) (Ne.symm haway)]
      exact hfirst.saved hstayed
  · intro pid hpid hlast
    by_cases hmiddle : pid = next.currentPid
    · have haway : next.currentPid ≠ sched.currentPid := hmiddle ▸ hpid
      rw [if_neg haway] at hfirstResumed
      rw [hmiddle, ← hfirstResumed]
      exact hsecond.saved (hmiddle ▸ Ne.symm hlast)
    · rw [hsecond.others pid hmiddle hlast]
      exact hfirst.others pid hpid hmiddle

/-- `schedule` saves the registers of the current process and of no other. -/
theorem schedule_esp (hschedule : schedule sched regs = some next) (pid : ℕ) :
    (next.processes pid).esp =
      if pid = sched.currentPid then regs else (sched.processes pid).esp := by
  have hidle : ∀ filled, addIdle sched = some filled →
      filled.processes = sched.processes ∧ filled.currentPid = sched.currentPid := by
    intro filled hfilled
    rw [addIdle] at hfilled
    split at hfilled
    · obtain ⟨hprocesses, hcurrent, -⟩ := addProcessQueue_keeps hfilled
      exact ⟨hprocesses, hcurrent⟩
    · cases hfilled
      exact ⟨rfl, rfl⟩
  cases hfilled : addIdle sched with
  | none => simp [schedule, hfilled] at hschedule
  | some filled =>
      obtain ⟨hprocesses, hcurrent⟩ := hidle filled hfilled
      simp only [schedule, hfilled] at hschedule
      cases hschedule
      dsimp only [SchedState.setProcess]
      rw [hprocesses, hcurrent, Function.update_apply]
      split
      · rfl
      · rfl

theorem schedule_switched (hsound : Sound sched)
    (hidle : (sched.processes 0).present = true) (regs : ℕ) :
    ∃ next out, Scheduler.irqHandler sched regs = some (next, out) ∧
      Switched sched regs next out := by
  obtain ⟨next, hschedule, hqueue, hcurrent, hlength, hprocesses⟩ :=
    schedule_spec sched regs hsound.length
  have hpresent : ∀ pid, (next.processes pid).present = (sched.processes pid).present := by
    intro pid
    rw [hprocesses pid]
  have hqueued : ∀ pid ∈ next.queue, (sched.processes pid).present = true := by
    intro pid hpid
    rw [hqueue] at hpid
    split at hpid
    case isTrue =>
      obtain rfl : pid = 0 := List.mem_singleton.mp hpid
      exact hidle
    case isFalse => exact hsound.queued pid hpid
  have hesp := schedule_esp hschedule
  refine ⟨next, newregs next, ?_, ⟨?_, hlength⟩, hpresent, .inr (hqueued _ hcurrent),
    hesp _, ?_, ?_⟩
  · rw [Scheduler.irqHandler, hschedule]
  · intro pid hpid
    rw [hpresent]
    exact hqueued pid hpid
  · intro _
    rw [hesp, if_pos rfl]
  · intro pid hpid _
    rw [hesp, if_neg hpid]

theorem unblock_switched (hsound : Sound sched) {pid : ℕ}
    (hpresent : (sched.processes pid).present = true)
    (hroom : sched.queueLength < processCount) (regs : ℕ) :
    ∃ next, setPidUnblocked sched pid = some next ∧ Switched sched regs next regs := by
  obtain ⟨next, hadd, hqueue, hprocesses, hcurrent, hlength⟩ :=
    addProcessQueue_of_lt
      (sched.setProcess pid { sched.processes pid with blocked := false }) pid hroom
  have hkept : ∀ other, (next.processes other).present = (sched.processes other).present ∧
      (next.processes other).esp = (sched.processes other).esp := by
    intro other
    rw [hprocesses]
    by_cases hother : other = pid
    · simp [SchedState.setProcess, hother]
    · simp [SchedState.setProcess, hother]
  refine ⟨next, hadd, ⟨?_, ?_⟩, fun other => (hkept other).1, .inl hcurrent, ?_, ?_,
    fun other _ _ => (hkept other).2⟩
  · intro other hother
    rw [hqueue, setProcess_queue, List.mem_append, List.mem_singleton] at hother
    rw [(hkept other).1]
    obtain hold | rfl := hother
    · exact hsound.queued other hold
    · exact hpresent
  · rw [hlength]
    exact hroom
  · rw [hcurrent]
    exact (if_pos rfl).symm
  · intro hne
    exact absurd hcurrent hne

/-- The process that a handler wakes exists, and there is room for it. -/
def MayWake (sched : SchedState) (woken : Option ℕ) : Prop :=
  ∀ pid, woken = some pid → (sched.processes pid).present = true ∧
    sched.queueLength < processCount

theorem mayWake_none : MayWake sched none := by
  intro pid hnone
  cases hnone

theorem runHandler_switched (hsound : Sound sched)
    (hidle : (sched.processes 0).present = true) {woken : Option ℕ}
    (hwoken : MayWake sched woken) (handler : Handler) (regs : ℕ) :
    ∃ next out, runHandler handler woken sched regs = some (next, out) ∧
      Switched sched regs next out := by
  cases handler with
  | schedule => exact schedule_switched hsound hidle regs
  | device =>
      cases woken with
      | none => exact ⟨sched, regs, rfl, Switched.refl hsound regs⟩
      | some pid =>
          obtain ⟨hpresent, hroom⟩ := hwoken pid rfl
          obtain ⟨next, hunblock, hswitched⟩ := unblock_switched hsound hpresent hroom regs
          refine ⟨next, regs, ?_, hswitched⟩
          rw [runHandler, hunblock, Option.map_some]

theorem irqHandler_switched (hsound : Sound sched)
    (hidle : (sched.processes 0).present = true) {woken : Option ℕ}
    (hwoken : MayWake sched woken) (handlers : ℕ → Option Handler) (line regs : ℕ) :
    ∃ next out, irqHandler handlers woken sched line regs = some (next, out) ∧
      Switched sched regs next out := by
  cases hline : handlers line with
  | none =>
      refine ⟨sched, regs, ?_, Switched.refl hsound regs⟩
      rw [irqHandler, hline]
  | some handler =>
      obtain ⟨next, middle, hrun, hfirst⟩ :=
        runHandler_switched hsound hidle hwoken handler regs
      cases htimer : handlers 0 with
      | none =>
          refine ⟨next, middle, ?_, hfirst⟩
          simp only [irqHandler, hline, hrun, htimer, ite_self]
      | some timer =>
          by_cases hpos : 0 < line
          · obtain ⟨last, out, hagain, hsecond⟩ :=
              runHandler_switched hfirst.sound ((hfirst.present 0).trans hidle)
                mayWake_none timer middle
            refine ⟨last, out, ?_, hfirst.trans hsecond⟩
            simp only [irqHandler, hline, hrun, htimer, if_pos hpos, hagain]
          · refine ⟨next, middle, ?_, hfirst⟩
            simp only [irqHandler, hline, hrun, if_neg hpos]

/-- What is left in the queue after a removal was queued before, or is the idle pid. -/
theorem removeProcessQueue_subset {pid : ℕ}
    (hremove : removeProcessQueue sched pid = some next) {entry : ℕ}
    (hentry : entry ∈ next.queue) : entry = 0 ∨ entry ∈ sched.queue ∧ entry ≠ pid := by
  have hzeroed : ∀ i < sched.queueLength, ∀ value,
      (zeroMatches sched.processQueue pid sched.queueLength).1 i = value →
      value = 0 ∨ value ∈ sched.queue ∧ value ≠ pid := by
    intro i hi value hvalue
    rw [zeroMatches_fst] at hvalue
    split at hvalue
    case isTrue => exact .inl hvalue.symm
    case isFalse hmatch =>
      refine .inr ⟨KimisOS.Entries.mem_entries.mpr ⟨i, hi, hvalue⟩, ?_⟩
      intro heq
      exact hmatch ⟨hi, hvalue.trans heq⟩
  rw [removeProcessQueue] at hremove
  split at hremove
  · cases hremove
  · rename_i hsome
    dsimp only at hremove
    split at hremove
    · cases hremove
      obtain ⟨i, hi, hvalue⟩ := KimisOS.Entries.mem_entries.mp hentry
      dsimp only at hi hvalue
      exact hzeroed i (by omega) entry hvalue
    · cases hremove
      obtain ⟨i, hi, hvalue⟩ := KimisOS.Entries.mem_entries.mp hentry
      dsimp only at hi hvalue
      rw [Function.update_of_ne (by omega), Function.update_apply] at hvalue
      split at hvalue
      · exact hzeroed _ (by omega) entry hvalue
      · exact hzeroed i (by omega) entry hvalue

end Handlers

/-! ## Runs with their history -/

/-- A machine, the registers that each process has had last while it ran, and how many
interrupts it has taken. -/
structure Traced where
  machine : Machine
  own : ℕ → Cpu
  taken : ℕ → ℕ

section Traced

variable (traced : Traced)

def Traced.current : ℕ := traced.machine.sched.currentPid

/-- Only the process itself changes its registers.  The boot code goes on as the first
process that is started, for that takes the slot of the current pid. -/
def Traced.ownAfter : Event → ℕ → Cpu
  | .run cpu _ => Function.update traced.own traced.current cpu
  | .threadStart function stack =>
      match freeSlot traced.machine.sched with
      | none => traced.own
      | some pid =>
          if pid = traced.current then traced.own
          else Function.update traced.own pid
            (firstCpu function (UInt32.ofNat (firstFrame stack)))
  | _ => traced.own

def Traced.takenAfter : Event → ℕ → ℕ
  | .irq _ _ _ => Function.update traced.taken traced.current (traced.taken traced.current + 1)
  | _ => traced.taken

def Traced.step (event : Event) : Option Traced :=
  (ContextSwitch.step traced.machine event).map fun machine =>
    ⟨machine, traced.ownAfter event, traced.takenAfter event⟩

/-- A process that does not run. -/
def Traced.Waits (pid : ℕ) : Prop :=
  (traced.machine.sched.processes pid).present = true ∧ pid ≠ traced.current

/-- An address of the registers that are saved for a process that waits. -/
def Traced.InFrame (a : ℕ) : Prop :=
  ∃ pid, traced.Waits pid ∧ (traced.machine.sched.processes pid).esp ≤ a ∧
    a < (traced.machine.sched.processes pid).esp + (traced.own pid).frameSize

/-- The stack of the current process. -/
def Traced.stack : ℕ := traced.machine.cpu.interruptStack traced.machine.esp0

/-- The idle process exists. -/
def Traced.Idle : Prop := (traced.machine.sched.processes 0).present = true

/-- How much of the stack an interrupt takes: the registers, and what the handler needs. -/
def Traced.depth (below : List UInt8) : ℕ := traced.machine.cpu.frameSize + below.length

/-- No process writes where the registers of another one are saved, and there is room
on the stack of the current one for its registers and for the handler, which needs at least
its argument and the return address.  Processes that are woken exist, and the run queue
has room. -/
def Traced.Admissible : Event → Prop
  | .run cpu mem =>
      (¬cpu.UserMode → cpu.ss = kernelData) ∧
        ∀ a, traced.InFrame a → mem a = traced.machine.mem a
  | .irq line woken below =>
      line < 16 ∧ traced.Idle ∧ MayWake traced.machine.sched woken ∧ 8 ≤ below.length ∧
        traced.depth below ≤ traced.stack ∧ traced.stack < 2 ^ 32 ∧
        ∀ a, traced.InFrame a → a < traced.stack - traced.depth below ∨ traced.stack ≤ a
  | .installIrqHandler _ line => line < 16
  | .threadStart _ stack =>
      (∃ pid, freeSlot traced.machine.sched = some pid) ∧
        traced.machine.sched.queueLength < processCount ∧
        ∀ a, traced.InFrame a →
          a < firstFrame stack ∨ firstFrame stack + registersSize ≤ a
  | .block _ => traced.Idle ∧ 0 < traced.machine.sched.queueLength
  | .unblock pid => MayWake traced.machine.sched (some pid)
  | .kill pid => traced.Idle ∧ 0 < traced.machine.sched.queueLength ∧ pid ≠ 0

/-- The current process has its own registers, and the others find theirs in their
frames. -/
structure Traced.Transparent : Prop where
  sound : Sound traced.machine.sched
  running : traced.machine.cpu = traced.own traced.current
  kernelSs : ¬traced.machine.cpu.UserMode → traced.machine.cpu.ss = kernelData
  saved : ∀ pid, traced.Waits pid →
    leave traced.machine.mem (traced.machine.sched.processes pid).esp kernelData =
      traced.own pid

end Traced

section Steps

variable {traced : Traced}

/-- Memory outside the frames of the waiting processes may change. -/
theorem Traced.Transparent.leave_eq (htransparent : traced.Transparent) {mem : ℕ → UInt8}
    (hsame : ∀ a, traced.InFrame a → mem a = traced.machine.mem a) {pid : ℕ}
    (hwaits : traced.Waits pid) :
    leave mem (traced.machine.sched.processes pid).esp kernelData = traced.own pid := by
  have hsaved := htransparent.saved pid hwaits
  rw [← hsaved]
  apply leave_congr
  intro a hfrom hto
  rw [hsaved] at hto
  exact hsame a ⟨pid, hwaits, hfrom, hto⟩

theorem Traced.step_run (htransparent : traced.Transparent) {cpu : Cpu} {mem : ℕ → UInt8}
    (hok : traced.Admissible (.run cpu mem)) :
    ∃ next, traced.step (.run cpu mem) = some next ∧ next.Transparent := by
  obtain ⟨hss, hsame⟩ := hok
  refine ⟨⟨{ traced.machine with cpu := cpu, mem := mem },
    Function.update traced.own traced.current cpu, traced.taken⟩, rfl,
    htransparent.sound, ?_, hss, ?_⟩
  · exact (Function.update_self traced.current cpu traced.own).symm
  · intro pid hwaits
    have hother : traced.Waits pid := hwaits
    change leave mem (traced.machine.sched.processes pid).esp kernelData =
      Function.update traced.own traced.current cpu pid
    rw [Function.update_of_ne hother.2]
    exact htransparent.leave_eq hsame hother

/-- Calls that only change the queue and the flags. -/
theorem Traced.Transparent.withSched (htransparent : traced.Transparent)
    {sched : SchedState} (hsound : Sound sched)
    (hcurrent : sched.currentPid = traced.machine.sched.currentPid)
    (hesp : ∀ pid, (sched.processes pid).esp = (traced.machine.sched.processes pid).esp)
    (hpresent : ∀ pid, (sched.processes pid).present = true →
      (traced.machine.sched.processes pid).present = true) (taken : ℕ → ℕ) :
    (⟨{ traced.machine with sched := sched }, traced.own, taken⟩ : Traced).Transparent := by
  refine ⟨hsound, ?_, htransparent.kernelSs, ?_⟩
  · rw [Traced.current, hcurrent]
    exact htransparent.running
  · intro pid hwaits
    dsimp only
    rw [hesp]
    exact htransparent.saved pid
      ⟨hpresent pid hwaits.1, fun heq => hwaits.2 (heq.trans hcurrent.symm)⟩

/-- A process is taken out of the queue, and may be gone. -/
theorem Traced.Transparent.remove (htransparent : traced.Transparent) {pid : ℕ}
    {process : Process} {sched : SchedState}
    (hremove : removeProcessQueue (traced.machine.sched.setProcess pid process) pid =
      some sched)
    (hesp : process.esp = (traced.machine.sched.processes pid).esp)
    (hpresent : process.present = true →
      (traced.machine.sched.processes pid).present = true)
    (hidle : traced.Idle) (hzero : process.present = false → pid ≠ 0) (taken : ℕ → ℕ) :
    (⟨{ traced.machine with sched := sched }, traced.own, taken⟩ : Traced).Transparent := by
  obtain ⟨hprocesses, hcurrent, hlength⟩ := removeProcessQueue_keeps hremove
  have hother : ∀ other, other ≠ pid →
      sched.processes other = traced.machine.sched.processes other := by
    intro other hne
    rw [hprocesses]
    exact Function.update_of_ne hne _ _
  have hself : sched.processes pid = process := by
    rw [hprocesses]
    exact Function.update_self _ _ _
  refine htransparent.withSched ⟨?_, ?_⟩ hcurrent ?_ ?_ taken
  · intro entry hentry
    obtain rfl | ⟨hqueued, hne⟩ := removeProcessQueue_subset hremove hentry
    · by_cases hpid : 0 = pid
      · subst hpid
        rw [hself]
        by_contra hgone
        exact hzero (Bool.eq_false_iff.mpr hgone) rfl
      · rw [hother 0 hpid]
        exact hidle
    · rw [hother entry hne]
      exact htransparent.sound.queued entry hqueued
  · have hle := htransparent.sound.length
    change sched.queueLength + 1 = traced.machine.sched.queueLength at hlength
    omega
  · intro other
    by_cases hne : other = pid
    · rw [hne, hself, hesp]
    · rw [hother other hne]
  · intro other hother'
    by_cases hne : other = pid
    · rw [hne, hself] at hother'
      rw [hne]
      exact hpresent hother'
    · rwa [hother other hne] at hother'

/-- A removal from a queue with entries has a result. -/
theorem removeProcessQueue_isSome {sched : SchedState} (pid : ℕ)
    (hsome : 0 < sched.queueLength) : ∃ removed, removeProcessQueue sched pid = some removed := by
  rw [removeProcessQueue, if_neg (Nat.pos_iff_ne_zero.mp hsome)]
  dsimp only
  split
  · exact ⟨_, rfl⟩
  · exact ⟨_, rfl⟩

theorem Traced.step_block (htransparent : traced.Transparent) {pid : ℕ}
    (hok : traced.Admissible (.block pid)) :
    ∃ next, traced.step (.block pid) = some next ∧ next.Transparent := by
  obtain ⟨hidle, hsome⟩ := hok
  obtain ⟨removed, hremove⟩ := @removeProcessQueue_isSome
    (traced.machine.sched.setProcess pid
      { traced.machine.sched.processes pid with blocked := true }) pid hsome
  refine ⟨⟨{ traced.machine with sched := removed }, traced.own, traced.taken⟩, ?_, ?_⟩
  · simp only [Traced.step, ContextSwitch.step, setPidBlocked, hremove, Option.map_some]
    rfl
  · refine htransparent.remove hremove rfl id hidle ?_ _
    rintro hgone rfl
    exact absurd (hidle.symm.trans hgone) (by decide)

theorem Traced.step_kill (htransparent : traced.Transparent) {pid : ℕ}
    (hok : traced.Admissible (.kill pid)) :
    ∃ next, traced.step (.kill pid) = some next ∧ next.Transparent := by
  obtain ⟨hidle, hsome, hzero⟩ := hok
  obtain ⟨removed, hremove⟩ := @removeProcessQueue_isSome
    (traced.machine.sched.setProcess pid
      { traced.machine.sched.processes pid with present := false, pageDir := 0 }) pid hsome
  refine ⟨⟨{ traced.machine with sched := removed }, traced.own, traced.taken⟩, ?_, ?_⟩
  · simp only [Traced.step, ContextSwitch.step, Scheduler.kill, hremove, Option.map_some]
    rfl
  · refine htransparent.remove hremove rfl ?_ hidle (fun _ => hzero) _
    intro hgone
    cases hgone

theorem Traced.step_unblock (htransparent : traced.Transparent) {pid : ℕ}
    (hok : traced.Admissible (.unblock pid)) :
    ∃ next, traced.step (.unblock pid) = some next ∧ next.Transparent := by
  obtain ⟨hpresent, hroom⟩ := hok pid rfl
  obtain ⟨sched, hunblock, hswitched⟩ :=
    unblock_switched htransparent.sound hpresent hroom 0
  obtain ⟨hprocesses, hcurrent, -⟩ := addProcessQueue_keeps hunblock
  refine ⟨⟨{ traced.machine with sched := sched }, traced.own, traced.taken⟩, ?_, ?_⟩
  · simp only [Traced.step, ContextSwitch.step, hunblock, Option.map_some]
    rfl
  · refine htransparent.withSched hswitched.sound hcurrent ?_ ?_ _
    · intro other
      rw [hprocesses]
      by_cases hother : other = pid
      · simp [SchedState.setProcess, hother]
      · simp [SchedState.setProcess, hother]
    · intro other hother
      rwa [hswitched.present other] at hother

theorem Traced.step_installIrqHandler (htransparent : traced.Transparent)
    (installed : Bool) (line : ℕ) :
    ∃ next, traced.step (.installIrqHandler installed line) = some next ∧
      next.Transparent :=
  ⟨_, rfl, htransparent.sound, htransparent.running, htransparent.kernelSs,
    htransparent.saved⟩

/-- What `spawn_new_process` and `thread_start` leave in the process table. -/
theorem spawnNewProcess_started {sched : SchedState} {pid : ℕ}
    (hslot : freeSlot sched = some pid) (hroom : sched.queueLength < processCount)
    (hsound : Sound sched) (esp pageDir : ℕ) :
    ∃ spawned, spawnNewProcess sched esp pageDir = some (spawned, some pid) ∧
      Sound spawned ∧ spawned.currentPid = sched.currentPid ∧
      (spawned.processes pid).esp = esp ∧
      ∀ other, other ≠ pid → spawned.processes other = sched.processes other := by
  obtain ⟨spawned, hadd, hqueue, hprocesses, hcurrent, hlength⟩ :=
    addProcessQueue_of_lt
      { sched.setProcess pid
        { present := true
          blocked := false
          system := (sched.processes sched.currentPid).system
          parent := sched.currentPid
          exitValue := 0
          pageDir := pageDir
          esp := esp } with activeProcesses := sched.activeProcesses + 1 } pid hroom
  have hself : (spawned.processes pid).present = true ∧
      (spawned.processes pid).esp = esp := by
    rw [hprocesses]
    simp [SchedState.setProcess]
  have hother : ∀ other, other ≠ pid → spawned.processes other = sched.processes other := by
    intro other hne
    rw [hprocesses]
    exact Function.update_of_ne hne _ _
  refine ⟨spawned, ?_, ⟨?_, ?_⟩, hcurrent, hself.2, hother⟩
  · simp only [spawnNewProcess, hslot, hadd]
  · intro entry hentry
    rw [hqueue, List.mem_append, List.mem_singleton] at hentry
    by_cases hne : entry = pid
    · rw [hne]
      exact hself.1
    · rw [hother entry hne]
      exact hsound.queued entry (hentry.resolve_right hne)
  · rw [hlength]
    exact hroom

theorem Traced.step_threadStart (htransparent : traced.Transparent) {function : UInt32}
    {stack : ℕ} (hok : traced.Admissible (.threadStart function stack)) :
    ∃ next, traced.step (.threadStart function stack) = some next ∧
      next.Transparent := by
  obtain ⟨⟨pid, hslot⟩, hroom, hframes⟩ := hok
  have hfree : (traced.machine.sched.processes pid).present = false :=
    (findSlot_spec hslot).2
  obtain ⟨spawned, hspawn, hsound, hcurrent, hesp, hother⟩ :=
    spawnNewProcess_started hslot hroom htransparent.sound (firstFrame stack) 0x10000
  have hnamed : ∀ other,
      ((spawned.setProcess pid { spawned.processes pid with
        parent := spawned.currentPid }).processes other).present =
          (spawned.processes other).present ∧
        ((spawned.setProcess pid { spawned.processes pid with
          parent := spawned.currentPid }).processes other).esp =
            (spawned.processes other).esp := by
    intro other
    by_cases hne : other = pid
    · simp [SchedState.setProcess, hne]
    · simp [SchedState.setProcess, hne]
  refine ⟨⟨{ traced.machine with
      sched := spawned.setProcess pid
        { spawned.processes pid with parent := spawned.currentPid }
      mem := storeWords traced.machine.mem (firstFrame stack)
        (firstRegisters function (UInt32.ofNat (firstFrame stack))) },
    traced.ownAfter (.threadStart function stack), traced.taken⟩, ?_, ?_, ?_,
    htransparent.kernelSs, ?_⟩
  · simp only [Traced.step, ContextSwitch.step, hspawn, Option.map_some]
    rfl
  · refine ⟨?_, hsound.length⟩
    intro entry hentry
    rw [(hnamed entry).1]
    exact hsound.queued entry hentry
  · have hown : traced.ownAfter (.threadStart function stack) traced.current =
        traced.own traced.current := by
      simp only [Traced.ownAfter, hslot]
      split
      case isTrue => rfl
      case isFalse hne => exact Function.update_of_ne (Ne.symm hne) _ _
    change traced.machine.cpu =
      traced.ownAfter (.threadStart function stack) spawned.currentPid
    rw [hcurrent]
    exact htransparent.running.trans hown.symm
  · rintro other ⟨hpresent, hne⟩
    have haway : other ≠ traced.current := fun heq => hne (heq.trans hcurrent.symm)
    dsimp only at hpresent ⊢
    rw [(hnamed other).1] at hpresent
    rw [(hnamed other).2]
    by_cases hnew : other = pid
    · -- the new process finds its first registers
      subst hnew
      rw [hesp, leave_firstRegisters]
      simp only [Traced.ownAfter, hslot, if_neg haway, Function.update_self]
    · rw [hother other hnew] at hpresent ⊢
      have hown : traced.ownAfter (.threadStart function stack) other =
          traced.own other := by
        simp only [Traced.ownAfter, hslot]
        split
        case isTrue => rfl
        case isFalse => exact Function.update_of_ne hnew _ _
      rw [hown]
      refine htransparent.leave_eq ?_ ⟨hpresent, haway⟩
      intro a ha
      exact storeWords_outside (hframes a ha)

/-- Outside user mode `ss` is not popped. -/
theorem leave_ss {mem : ℕ → UInt8} {regs : ℕ} {ss : UInt16}
    (hkernel : ¬(leave mem regs ss).UserMode) : (leave mem regs ss).ss = ss := by
  have hlevel : ¬(wordAt mem (regs + 4 * 15)).toUInt16.toNat % 4 = 3 := hkernel
  simp only [leave, if_neg hlevel]

theorem Traced.step_irq (htransparent : traced.Transparent) {line : ℕ}
    {woken : Option ℕ} {below : List UInt8}
    (hok : traced.Admissible (.irq line woken below)) :
    ∃ next, traced.step (.irq line woken below) = some next ∧ next.Transparent ∧
      next.machine.esp0 = (if next.current = traced.current
        then traced.stack - traced.machine.cpu.frameSize
        else (traced.machine.sched.processes next.current).esp) ∧
      Switched traced.machine.sched (traced.stack - traced.machine.cpu.frameSize)
        next.machine.sched next.machine.esp0 ∧
      next.own = traced.own ∧
      next.taken = Function.update traced.taken traced.current
        (traced.taken traced.current + 1) := by
  obtain ⟨-, hidle, hwoken, -, hdepth, hstack, hframes⟩ := hok
  rw [Traced.depth] at hdepth hframes
  have hroom : traced.machine.cpu.frameSize ≤ traced.stack := by omega
  have hbelow : below.length ≤ traced.stack - traced.machine.cpu.frameSize := by omega
  have hregs := @enter_snd traced.machine.cpu traced.machine.mem traced.machine.esp0
    (32 + line) hroom hstack
  change _ = traced.stack - traced.machine.cpu.frameSize at hregs
  have hss : (if traced.machine.cpu.UserMode then kernelData else traced.machine.cpu.ss) =
      kernelData := by
    split
    case isTrue => rfl
    case isFalse hkernel => exact htransparent.kernelSs hkernel
  obtain ⟨sched, out, hhandled, hswitched⟩ :=
    irqHandler_switched htransparent.sound hidle hwoken traced.machine.handlers line
      (traced.stack - traced.machine.cpu.frameSize)
  generalize hpushed : writeU32 (enter traced.machine.cpu traced.machine.esp0 (32 + line)
    traced.machine.mem).1 (traced.stack - traced.machine.cpu.frameSize + 28)
    (traced.stack - traced.machine.cpu.frameSize) = pushed
  generalize hmem : useStack pushed (traced.stack - traced.machine.cpu.frameSize) below = mem
  -- the handler works below the registers that have been pushed
  have hinterrupted :
      leave mem (traced.stack - traced.machine.cpu.frameSize) kernelData =
        traced.own traced.current := by
    have hpopped : leave pushed (traced.stack - traced.machine.cpu.frameSize) kernelData =
        traced.machine.cpu := by
      rw [← hpushed]
      exact leave_enter hroom hstack htransparent.kernelSs rfl _
    rw [← htransparent.running]
    refine Eq.trans ?_ hpopped
    apply leave_congr
    intro a hfrom _
    rw [← hmem]
    exact useStack_outside hbelow (.inr hfrom)
  have hsize : 68 ≤ traced.machine.cpu.frameSize := by
    rw [Cpu.frameSize, registersSize]
    split <;> omega
  have hsame : ∀ a, traced.InFrame a → mem a = traced.machine.mem a := by
    intro a ha
    have haway := hframes a ha
    rw [← hmem, useStack_outside hbelow (by omega), ← hpushed, writeU32,
      store_outside (by omega)]
    have hclear : a < traced.stack - traced.machine.cpu.frameSize ∨ traced.stack ≤ a := by
      omega
    exact enter_outside hroom hstack hclear
  have hresumed : leave mem out kernelData = traced.own sched.currentPid := by
    rw [hswitched.resumed]
    split
    case isTrue hsame' =>
      rw [hsame']
      exact hinterrupted
    case isFalse haway =>
      exact htransparent.leave_eq hsame
        ⟨hswitched.current.resolve_left haway, haway⟩
  refine ⟨⟨{ traced.machine with
      sched := sched
      cpu := leave mem out kernelData
      mem := mem
      esp0 := out }, traced.own, Function.update traced.taken traced.current
        (traced.taken traced.current + 1)⟩, ?_,
    ⟨hswitched.sound, hresumed, leave_ss, ?_⟩, hswitched.resumed, hswitched, rfl, rfl⟩
  · simp only [Traced.step, ContextSwitch.step, hregs, hss, hhandled, hpushed, hmem,
      Option.map_some]
    rfl
  · rintro pid ⟨hpresent, hne⟩
    rw [hswitched.present] at hpresent
    by_cases hstopped : pid = traced.machine.sched.currentPid
    · subst hstopped
      dsimp only
      rw [hswitched.saved (Ne.symm hne)]
      exact hinterrupted
    · dsimp only
      rw [hswitched.others pid hstopped hne]
      exact htransparent.leave_eq hsame ⟨hpresent, hstopped⟩

theorem Traced.step_transparent (htransparent : traced.Transparent) {event : Event}
    (hok : traced.Admissible event) :
    ∃ next, traced.step event = some next ∧ next.Transparent := by
  cases event with
  | run cpu mem => exact Traced.step_run htransparent hok
  | irq line woken below =>
      obtain ⟨next, hstep, hnext, -⟩ := Traced.step_irq htransparent hok
      exact ⟨next, hstep, hnext⟩
  | installIrqHandler installed line =>
      exact Traced.step_installIrqHandler htransparent installed line
  | threadStart function stack => exact Traced.step_threadStart htransparent hok
  | block pid => exact Traced.step_block htransparent hok
  | unblock pid => exact Traced.step_unblock htransparent hok
  | kill pid => exact Traced.step_kill htransparent hok

end Steps

/-! ## Booted machines -/

/-- After `scheduler_init`: no process, and the scheduler on line 0. -/
def boot (memory : ℕ → Process) (cpu : Cpu) (mem : ℕ → UInt8) (esp0 : ℕ) : Traced where
  machine :=
    { sched := schedulerInit memory
      cpu := cpu
      mem := mem
      esp0 := esp0
      handlers := Function.update (fun _ => none) 0 (some .schedule) }
  own _ := cpu
  taken _ := 0

theorem boot_transparent (memory : ℕ → Process) {cpu : Cpu} (hss : cpu.ss = kernelData)
    (mem : ℕ → UInt8) (esp0 : ℕ) : (boot memory cpu mem esp0).Transparent := by
  refine ⟨⟨?_, Nat.zero_le _⟩, rfl, fun _ => hss, ?_⟩
  · intro pid hpid
    cases hpid
  · rintro pid ⟨hpresent, -⟩
    cases hpresent

/-- Interrupts are transparent: in every run the current process has the registers that
it had last itself, and so has every other process when it is resumed, whatever the
processes and the handlers have done in between. -/
theorem interrupts_transparent (memory : ℕ → Process) (cpu : Cpu) (mem : ℕ → UInt8)
    (esp0 : ℕ) (hss : cpu.ss = kernelData) {events : List Event}
    (hmeets : Meets Traced.step Traced.Admissible (boot memory cpu mem esp0) events) :
    ∃ final, exec Traced.step (boot memory cpu mem esp0) events = some final ∧
      final.machine.cpu = final.own final.current ∧
      ∀ pid, final.Waits pid →
        leave final.machine.mem (final.machine.sched.processes pid).esp kernelData =
          final.own pid := by
  obtain ⟨final, hrun, hfinal⟩ :=
    exec_total (fun _ _ htransparent hok => Traced.step_transparent htransparent hok)
      (boot_transparent memory hss mem esp0) hmeets
  exact ⟨final, hrun, hfinal.running, hfinal.saved⟩

def noProcess : Process := ⟨false, false, false, 0, 0, 0, 0⟩

/-- The boot code starts the first thread in its own slot, and a second one, which the
timer then switches to. -/
theorem interrupts_transparent_two :
    ∃ final, exec Traced.step
        (boot (fun _ => noProcess) { firstCpu 0x1000 0 with esp := 0x90000 } (fun _ => 0) 0)
        [.threadStart 0x1000 0x100000, .threadStart 0x2000 0x200000,
          .irq 0 none (List.replicate 64 0xcc)] =
          some final ∧
      final.machine.cpu = final.own final.current ∧
      ∀ pid, final.Waits pid →
        leave final.machine.mem (final.machine.sched.processes pid).esp kernelData =
          final.own pid := by
  apply interrupts_transparent (fun _ => noProcess)
    { firstCpu 0x1000 0 with esp := 0x90000 } (fun _ => 0) 0 rfl
  refine meets_cons_intro ⟨⟨0, rfl⟩, by decide, ?_⟩ ?_
  · rintro a ⟨pid, ⟨hpresent, -⟩, -⟩
    cases hpresent
  intro first hfirst
  cases hfirst
  refine meets_cons_intro ⟨⟨1, rfl⟩, by decide, ?_⟩ ?_
  · rintro a ⟨pid, ⟨hpresent, hne⟩, -⟩
    have hzero : pid ≠ 0 := hne
    simp [boot, schedulerInit, SchedState.setProcess, noProcess, hzero] at hpresent
  intro second hsecond
  cases hsecond
  refine meets_cons_intro
    ⟨by decide, rfl, mayWake_none, by decide, by decide, by decide, ?_⟩ ?_
  · rintro a ⟨pid, ⟨hpresent, hne⟩, hfrom, -⟩
    have hzero : pid ≠ 0 := hne
    have hone : pid = 1 := by
      by_contra hone
      have habsent : (Function.update (Function.update (Function.update (Function.update
          (fun _ => noProcess) 0 _) 0 _) 1 _) 1 _ pid).present = true := hpresent
      rw [Function.update_of_ne hone, Function.update_of_ne hone,
        Function.update_of_ne hzero, Function.update_of_ne hzero] at habsent
      cases habsent
    subst hone
    right
    have : (0x200000 : ℕ) ≤ a := le_trans (by decide) hfrom
    exact le_trans (by decide) this
  · intro _ _
    trivial

/-! ## What an interrupt costs the stack -/

section Creep

variable {traced next : Traced} {pid base : ℕ}

/-- Where the next interrupt out of user mode will push: from the task state segment,
or from the registers with which the process will be resumed. -/
def Traced.kernelStack (traced : Traced) (pid : ℕ) : ℕ :=
  if traced.current = pid then traced.machine.esp0
  else (traced.machine.sched.processes pid).esp

/-- The process stays in user mode, and is not killed. -/
def Traced.StaysUser (pid : ℕ) (traced : Traced) : Event → Prop
  | .run cpu mem => traced.Admissible (.run cpu mem) ∧ (traced.current = pid → cpu.UserMode)
  | .kill other => traced.Admissible (.kill other) ∧ other ≠ pid
  | event => traced.Admissible event

/-- All the interrupts that the process has taken have cost it their registers. -/
structure Traced.Creeps (pid base : ℕ) (traced : Traced) : Prop where
  transparent : traced.Transparent
  present : (traced.machine.sched.processes pid).present = true
  user : (traced.own pid).UserMode
  cost : traced.kernelStack pid + registersSize * traced.taken pid = base

/-- Steps that leave the stack of the process where it is. -/
theorem Traced.Creeps.of_same (hcreeps : traced.Creeps pid base)
    (htransparent : next.Transparent)
    (hpresent : (next.machine.sched.processes pid).present = true)
    (hown : (next.own pid).UserMode)
    (hstack : next.kernelStack pid = traced.kernelStack pid)
    (htaken : next.taken pid = traced.taken pid) : next.Creeps pid base := by
  refine ⟨htransparent, hpresent, hown, ?_⟩
  rw [hstack, htaken]
  exact hcreeps.cost

theorem Traced.Creeps.irq (hcreeps : traced.Creeps pid base) {line : ℕ}
    {woken : Option ℕ} {below : List UInt8}
    (hok : traced.Admissible (.irq line woken below)) :
    ∃ next, traced.step (.irq line woken below) = some next ∧ next.Creeps pid base := by
  obtain ⟨next, hstep, htransparent, hesp0, hswitched, hown, htaken⟩ :=
    Traced.step_irq hcreeps.transparent hok
  obtain ⟨-, -, -, -, hdepth, -⟩ := hok
  have hroom : traced.machine.cpu.frameSize ≤ traced.stack := by
    rw [Traced.depth] at hdepth
    omega
  refine ⟨next, hstep, htransparent, (hswitched.present pid).trans hcreeps.present,
    hown ▸ hcreeps.user, ?_⟩
  have hcost := hcreeps.cost
  by_cases hrunning : traced.current = pid
  · -- the registers are pushed below the old stack pointer, and that is kept
    have huser : traced.machine.cpu.UserMode := by
      rw [hcreeps.transparent.running, hrunning]
      exact hcreeps.user
    have hsize : traced.machine.cpu.frameSize = registersSize := if_pos huser
    have hstack : traced.stack = traced.machine.esp0 := if_pos huser
    have hpushed : next.kernelStack pid = traced.machine.esp0 - registersSize := by
      rw [Traced.kernelStack]
      by_cases hstays : next.current = pid
      · rw [if_pos hstays, hesp0, if_pos (hstays.trans hrunning.symm), hstack, hsize]
      · have haway : next.machine.sched.currentPid ≠ traced.machine.sched.currentPid :=
          fun heq => hstays (heq.trans hrunning)
        rw [if_neg hstays, ← hstack, ← hsize, ← hswitched.saved haway]
        exact congrArg (fun other => (next.machine.sched.processes other).esp) hrunning.symm
    rw [Traced.kernelStack, if_pos hrunning] at hcost
    have hroom' : registersSize ≤ traced.machine.esp0 := hstack ▸ hsize ▸ hroom
    rw [hpushed, htaken, hrunning, Function.update_self, Nat.mul_succ]
    omega
  · have hkept : next.kernelStack pid = traced.kernelStack pid := by
      rw [Traced.kernelStack, Traced.kernelStack, if_neg hrunning]
      by_cases hresumed : next.current = pid
      · rw [if_pos hresumed, hesp0, if_neg (fun heq => hrunning (heq.symm.trans hresumed)),
          hresumed]
      · rw [if_neg hresumed, hswitched.others pid (Ne.symm hrunning) (Ne.symm hresumed)]
    rw [hkept, htaken, Function.update_of_ne (Ne.symm hrunning)]
    exact hcost

/-- What the other steps leave: the current pid, the stack for the next interrupt, and
the registers that are saved for a process. -/
structure Traced.Keeps (pid : ℕ) (traced next : Traced) : Prop where
  current : next.current = traced.current
  esp0 : next.machine.esp0 = traced.machine.esp0
  taken : next.taken = traced.taken
  present : (next.machine.sched.processes pid).present = true
  esp : (next.machine.sched.processes pid).esp = (traced.machine.sched.processes pid).esp

theorem Traced.keeps_of_sched {sched : SchedState}
    (hcurrent : sched.currentPid = traced.machine.sched.currentPid)
    (hpresent : (sched.processes pid).present = true)
    (hesp : (sched.processes pid).esp = (traced.machine.sched.processes pid).esp)
    (own : ℕ → Cpu) : traced.Keeps pid
      ⟨{ traced.machine with sched := sched }, own, traced.taken⟩ :=
  ⟨hcurrent, rfl, rfl, hpresent, hesp⟩

/-- A flag of one process does not show in what `Keeps` asks of another, or of itself. -/
theorem setProcess_present_esp {sched : SchedState} {other : ℕ} {process : Process}
    (hpresent : other = pid → process.present = (sched.processes pid).present)
    (hesp : process.esp = (sched.processes other).esp) :
    ((sched.setProcess other process).processes pid).present =
        (sched.processes pid).present ∧
      ((sched.setProcess other process).processes pid).esp = (sched.processes pid).esp := by
  by_cases hother : pid = other
  · subst hother
    simp only [SchedState.setProcess, Function.update_self]
    exact ⟨hpresent rfl, hesp⟩
  · simp only [SchedState.setProcess, Function.update_of_ne hother, and_self]

theorem Traced.keeps_of_remove {other : ℕ} {process : Process} {sched : SchedState}
    (hremove : removeProcessQueue (traced.machine.sched.setProcess other process) other =
      some sched) (hpresent : (traced.machine.sched.processes pid).present = true)
    (hsame : other = pid → process.present = (traced.machine.sched.processes pid).present)
    (hesp : process.esp = (traced.machine.sched.processes other).esp) (own : ℕ → Cpu) :
    traced.Keeps pid ⟨{ traced.machine with sched := sched }, own, traced.taken⟩ := by
  obtain ⟨hprocesses, hcurrent, -⟩ := removeProcessQueue_keeps hremove
  obtain ⟨hkept, hkeptEsp⟩ := @setProcess_present_esp pid _ _ _ hsame hesp
  refine Traced.keeps_of_sched hcurrent ?_ ?_ own
  · rw [hprocesses, hkept]
    exact hpresent
  · rw [hprocesses, hkeptEsp]

theorem Traced.step_keeps {event : Event} (hstep : traced.step event = some next)
    (hpresent : (traced.machine.sched.processes pid).present = true)
    (hirq : ∀ line woken below, event ≠ .irq line woken below) (hkill : event ≠ .kill pid) :
    traced.Keeps pid next := by
  obtain ⟨machine, hmachine, hnext⟩ := Option.map_eq_some_iff.mp hstep
  subst hnext
  cases event with
  | run cpu mem =>
      cases hmachine
      exact ⟨rfl, rfl, rfl, hpresent, rfl⟩
  | irq line woken below => exact absurd rfl (hirq line woken below)
  | installIrqHandler installed line =>
      cases hmachine
      exact ⟨rfl, rfl, rfl, hpresent, rfl⟩
  | threadStart function stack =>
      rw [ContextSwitch.step, spawnNewProcess] at hmachine
      cases hslot : freeSlot traced.machine.sched with
      | none => simp [hslot] at hmachine
      | some slot =>
          have hne : pid ≠ slot := by
            rintro rfl
            exact absurd (hpresent.symm.trans (findSlot_spec hslot).2) (by decide)
          simp only [hslot] at hmachine
          split at hmachine
          · cases hmachine
          · cases hmachine
          · rename_i sched started hspawned
            split at hspawned
            · cases hspawned
            · rename_i queued hadd
              cases hspawned
              cases hmachine
              obtain ⟨hprocesses, hcurrent, -⟩ := addProcessQueue_keeps hadd
              have hkept : ((sched.setProcess slot { sched.processes slot with
                  parent := sched.currentPid }).processes pid) =
                    traced.machine.sched.processes pid := by
                simp only [SchedState.setProcess, Function.update_of_ne hne, hprocesses]
              refine ⟨hcurrent, rfl, rfl, ?_, ?_⟩
              · rw [← hpresent]
                exact congrArg Process.present hkept
              · exact congrArg Process.esp hkept
  | block other =>
      obtain ⟨sched, hremove, hnext⟩ := Option.map_eq_some_iff.mp hmachine
      subst hnext
      refine Traced.keeps_of_remove hremove hpresent ?_ rfl _
      rintro rfl
      rfl
  | unblock other =>
      obtain ⟨sched, hadd, hnext⟩ := Option.map_eq_some_iff.mp hmachine
      subst hnext
      obtain ⟨hprocesses, hcurrent, -⟩ := addProcessQueue_keeps hadd
      obtain ⟨hkept, hkeptEsp⟩ := @setProcess_present_esp pid traced.machine.sched other
        { traced.machine.sched.processes other with blocked := false }
        (fun hother => hother ▸ rfl) rfl
      refine Traced.keeps_of_sched hcurrent ?_ ?_ _
      · rw [hprocesses, hkept]
        exact hpresent
      · rw [hprocesses, hkeptEsp]
  | kill other =>
      obtain ⟨sched, hremove, hnext⟩ := Option.map_eq_some_iff.mp hmachine
      subst hnext
      refine Traced.keeps_of_remove hremove hpresent ?_ rfl _
      rintro rfl
      exact absurd rfl hkill

theorem Traced.step_creeps (hcreeps : traced.Creeps pid base) {event : Event}
    (hok : traced.StaysUser pid event) :
    ∃ next, traced.step event = some next ∧ next.Creeps pid base := by
  have hother : (∀ line woken below, event ≠ .irq line woken below) → event ≠ .kill pid →
      (traced.ownAfter event pid).UserMode → traced.Admissible event →
      ∃ next, traced.step event = some next ∧ next.Creeps pid base := by
    intro hirq hkill hown hok
    obtain ⟨next, hstep, htransparent⟩ :=
      Traced.step_transparent hcreeps.transparent hok
    have hkeeps := Traced.step_keeps hstep hcreeps.present hirq hkill
    obtain ⟨machine, -, hnext⟩ := Option.map_eq_some_iff.mp hstep
    refine ⟨next, hstep, hcreeps.of_same htransparent hkeeps.present ?_ ?_ ?_⟩
    · rw [← hnext]
      exact hown
    · rw [Traced.kernelStack, Traced.kernelStack, hkeeps.current, hkeeps.esp0, hkeeps.esp]
    · rw [hkeeps.taken]
  cases event with
  | run cpu mem =>
      obtain ⟨hok, huser⟩ := hok
      refine hother (by simp) (by simp) ?_ hok
      by_cases hrunning : pid = traced.current
      · rw [Traced.ownAfter, hrunning, Function.update_self]
        exact huser hrunning.symm
      · rw [Traced.ownAfter, Function.update_of_ne hrunning]
        exact hcreeps.user
  | irq line woken below => exact hcreeps.irq hok
  | installIrqHandler installed line => exact hother (by simp) (by simp) hcreeps.user hok
  | threadStart function stack =>
      refine hother (by simp) (by simp) ?_ hok
      obtain ⟨⟨slot, hslot⟩, -⟩ := hok
      have hne : pid ≠ slot := by
        rintro rfl
        exact absurd (hcreeps.present.symm.trans (findSlot_spec hslot).2) (by decide)
      simp only [Traced.ownAfter, hslot]
      split
      case isTrue => exact hcreeps.user
      case isFalse =>
        rw [Function.update_of_ne hne]
        exact hcreeps.user
  | block other => exact hother (by simp) (by simp) hcreeps.user hok
  | unblock other => exact hother (by simp) (by simp) hcreeps.user hok
  | kill other =>
      obtain ⟨hok, hne⟩ := hok
      exact hother (by simp) (by simpa using hne) hcreeps.user hok

/-- Every interrupt out of user mode lowers the kernel stack of the process by the
registers it has pushed, and nothing raises it again while the process stays in user
mode: the address in the task state segment is that of the registers, not of the top of
the stack. -/
theorem kernel_stack_creeps (memory : ℕ → Process) (cpu : Cpu) (mem : ℕ → UInt8)
    (esp0 : ℕ) (hss : cpu.ss = kernelData) {before after : List Event} {middle : Traced}
    {pid : ℕ} (hbefore : Meets Traced.step Traced.Admissible (boot memory cpu mem esp0) before)
    (hmiddle : exec Traced.step (boot memory cpu mem esp0) before = some middle)
    (hpresent : (middle.machine.sched.processes pid).present = true)
    (huser : (middle.own pid).UserMode)
    (hafter : Meets Traced.step (Traced.StaysUser pid) middle after) :
    ∃ final, exec Traced.step middle after = some final ∧
      final.kernelStack pid + registersSize * final.taken pid =
        middle.kernelStack pid + registersSize * middle.taken pid := by
  obtain ⟨reached, hreached, htransparent⟩ :=
    exec_total (fun _ _ htransparent hok => Traced.step_transparent htransparent hok)
      (boot_transparent memory hss mem esp0) hbefore
  obtain rfl : middle = reached := Option.some.inj (hmiddle.symm.trans hreached)
  obtain ⟨final, hrun, hfinal⟩ :=
    exec_total (fun _ _ hcreeps hok => Traced.step_creeps hcreeps hok)
      (⟨htransparent, hpresent, huser, rfl⟩ : middle.Creeps pid _) hafter
  exact ⟨final, hrun, hfinal.cost⟩

/-- The timer interrupts the first process after that has gone to user mode. -/
theorem kernel_stack_creeps_once :
    ∃ middle, exec Traced.step
        (boot (fun _ => noProcess) (firstCpu 0x1000 0x90000) (fun _ => 0) 0x80000)
        [.threadStart 0x1000 0x100000,
          .run { firstCpu 0x8000 0 with cs := 0x23, ss := 0x2b } (fun _ => 0)] =
          some middle ∧
      ∃ final, exec Traced.step middle [.irq 0 none (List.replicate 64 0xcc)] = some final ∧
        final.kernelStack 0 + registersSize * final.taken 0 =
          middle.kernelStack 0 + registersSize * middle.taken 0 := by
  have hbefore : Meets Traced.step Traced.Admissible
      (boot (fun _ => noProcess) (firstCpu 0x1000 0x90000) (fun _ => 0) 0x80000)
      [.threadStart 0x1000 0x100000,
        .run { firstCpu 0x8000 0 with cs := 0x23, ss := 0x2b } (fun _ => 0)] := by
    refine meets_cons_intro ⟨⟨0, rfl⟩, by decide, ?_⟩ ?_
    · rintro a ⟨pid, ⟨hpresent, -⟩, -⟩
      cases hpresent
    · intro started hstarted
      cases hstarted
      refine meets_cons_intro ⟨fun hkernel => absurd rfl hkernel, ?_⟩ fun _ _ => trivial
      rintro a ⟨pid, ⟨hpresent, hne⟩, -⟩
      have hzero : pid ≠ 0 := hne
      have habsent : (Function.update (Function.update (fun _ => noProcess) 0 _) 0 _
        pid).present = true := hpresent
      rw [Function.update_of_ne hzero, Function.update_of_ne hzero] at habsent
      cases habsent
  refine ⟨_, rfl, ?_⟩
  apply kernel_stack_creeps (fun _ => noProcess) (firstCpu 0x1000 0x90000) (fun _ => 0)
    0x80000 rfl hbefore rfl rfl (by decide)
  refine meets_cons_intro
    ⟨by decide, rfl, mayWake_none, by decide, by decide, by decide, ?_⟩ fun _ _ => trivial
  rintro a ⟨pid, ⟨hpresent, hne⟩, -⟩
  have hzero : pid ≠ 0 := hne
  have habsent : (Function.update (Function.update (fun _ => noProcess) 0 _) 0 _
    pid).present = true := hpresent
  rw [Function.update_of_ne hzero, Function.update_of_ne hzero] at habsent
  cases habsent

end Creep

end KimisOS.ContextSwitch
