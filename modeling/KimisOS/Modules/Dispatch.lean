import Mathlib

/-!
# Messages to modules

The kernel offers a message to the registered modules in turn.  It picks the
arguments out of the variable argument list by the message code, with its own
enumeration of the codes; the modules are compiled with another one.
-/

namespace KimisOS.Modules

/-! ## Message codes -/

def messageMountFs : ℕ := 0
def messageUnmountFs : ℕ := 1
def messagePartitonDetect : ℕ := 2
def messageDeviceAdd : ℕ := 3
def messageDeviceRemove : ℕ := 4
def messageBroadcast : ℕ := 0x80000000

namespace Modlib

/-! The codes that the modules are compiled with. -/

def messageMountFs : ℕ := 0
def messageUnmountFs : ℕ := 1
def messagePartitionDetect : ℕ := 2
def messagePartitionRefresh : ℕ := 3
def messageDeviceAdd : ℕ := 4
def messageDeviceRemove : ℕ := 5
def messageBroadcast : ℕ := 0x80000000

def messages : List ℕ :=
  [messageMountFs, messageUnmountFs, messagePartitionDetect, messagePartitionRefresh,
    messageDeviceAdd, messageDeviceRemove, messageBroadcast]

end Modlib

/-! ## The dispatcher -/

/-- What a handler is called with: the code and the words behind it. -/
structure Call where
  message : ℕ
  arguments : List ℕ
  deriving DecidableEq

variable {State : Type*}

/-- `message_handler`: what a call does to the rest of the system, and the
`int32_t` it returns. -/
abbrev Handler (State : Type*) := State → Call → State × ℤ

/-- What a dispatch leaves: the state, the calls with the index of the module
that was called, and the returned number. -/
structure Outcome (State : Type*) where
  state : State
  calls : List (ℕ × Call)
  returned : ℤ

/-- The call in front of the others. -/
def Outcome.after (out : Outcome State) (i : ℕ) (call : Call) : Outcome State :=
  { out with calls := (i, call) :: out.calls }

/-- The words that the two switches take from the argument list and pass on;
the other codes fall through both. -/
def passedArguments (message : ℕ) (args : ℕ → ℕ) : Option (List ℕ) :=
  if message = messageMountFs then some [args 0, args 1, args 2]
  else if message = messageUnmountFs ∨ message = messagePartitonDetect ∨
      message = messageDeviceRemove ∨ message = messageDeviceAdd then some [args 0]
  else none

/-- `(int32_t) message >= 0`. -/
def isUnicast (message : ℕ) : Bool := decide (message < 2 ^ 31)

/-- The loop of `va_dispatch_message` from module `i` on. -/
def dispatchFrom (message : ℕ) (args : ℕ → ℕ) :
    ℕ → List (Option (Handler State)) → State → Outcome State
  | _, [], state => ⟨state, [], -1⟩
  | i, none :: modules, state => dispatchFrom message args (i + 1) modules state
  | i, some handler :: modules, state =>
      match passedArguments message args with
      | some words =>
          let answer := handler state ⟨message, words⟩
          if isUnicast message ∧ 0 ≤ answer.2 then
            ⟨answer.1, [(i, ⟨message, words⟩)], answer.2⟩
          else
            (dispatchFrom message args (i + 1) modules answer.1).after i ⟨message, words⟩
      | none =>
          -- No case of the switch: the result stays 0.
          if isUnicast message ∧ (0 : ℤ) ≤ 0 then ⟨state, [], 0⟩
          else dispatchFrom message args (i + 1) modules state

/-- `va_dispatch_message`. -/
def vaDispatchMessage (modules : List (Option (Handler State))) (state : State)
    (message : ℕ) (args : ℕ → ℕ) : Outcome State :=
  dispatchFrom message args 0 modules state

/-! ## The law of dispatch -/

/-- The modules with a handler, with their places, from place `i` on. -/
def listenersFrom : ℕ → List (Option (Handler State)) → List (ℕ × Handler State)
  | _, [] => []
  | i, none :: modules => listenersFrom (i + 1) modules
  | i, some handler :: modules => (i, handler) :: listenersFrom (i + 1) modules

def listeners (modules : List (Option (Handler State))) : List (ℕ × Handler State) :=
  listenersFrom 0 modules

/-- The arguments of a message: a mount has a file, a name and an offset, the
others have a file. -/
def suppliedArguments (message : ℕ) (args : ℕ → ℕ) : List ℕ :=
  if message = Modlib.messageMountFs then [args 0, args 1, args 2] else [args 0]

/-- The listeners are called in turn until one accepts. -/
inductive Unicast (call : Call) :
    List (ℕ × Handler State) → State → Outcome State → Prop where
  | refused (state : State) : Unicast call [] state ⟨state, [], -1⟩
  | accepted {i : ℕ} {handler : Handler State} {rest : List (ℕ × Handler State)}
      {state : State} (haccepts : 0 ≤ (handler state call).2) :
      Unicast call ((i, handler) :: rest) state
        ⟨(handler state call).1, [(i, call)], (handler state call).2⟩
  | passed {i : ℕ} {handler : Handler State} {rest : List (ℕ × Handler State)}
      {state : State} {out : Outcome State} (hrefuses : (handler state call).2 < 0)
      (hrest : Unicast call rest (handler state call).1 out) :
      Unicast call ((i, handler) :: rest) state (out.after i call)

/-- The law for one dispatch; a broadcast calls every listener once. -/
def DispatchLaw (modules : List (Option (Handler State))) (state : State) (message : ℕ)
    (args : ℕ → ℕ) (out : Outcome State) : Prop :=
  if message < 2 ^ 31 then
    Unicast ⟨message, suppliedArguments message args⟩ (listeners modules) state out
  else
    out.calls.map (fun call => (call.1, call.2.message)) =
      (listeners modules).map fun listener => (listener.1, message)

/-! ## When the law holds -/

section Law

variable {modules : List (Option (Handler State))} {state : State} {message i : ℕ}
  {args : ℕ → ℕ}

/-- The kernel passes on the arguments of its own codes. -/
theorem passedArguments_eq (args : ℕ → ℕ) :
    passedArguments message args =
      if message ≤ 4 then some (suppliedArguments message args) else none := by
  rcases Nat.lt_or_ge 4 message with hlt | hle
  · have hmount : message ≠ messageMountFs := by
      unfold messageMountFs
      omega
    have hothers : ¬(message = messageUnmountFs ∨ message = messagePartitonDetect ∨
        message = messageDeviceRemove ∨ message = messageDeviceAdd) := by
      unfold messageUnmountFs messagePartitonDetect messageDeviceRemove messageDeviceAdd
      omega
    rw [if_neg (by omega), passedArguments, if_neg hmount, if_neg hothers]
  · rw [if_pos hle]
    interval_cases message <;> rfl

/-- The kernel's own codes are offered to the listeners in turn. -/
theorem dispatchFrom_unicast (hmessage : message ≤ 4) :
    Unicast ⟨message, suppliedArguments message args⟩ (listenersFrom i modules) state
      (dispatchFrom message args i modules state) := by
  have hpassed := @passedArguments_eq message args
  rw [if_pos hmessage] at hpassed
  have hunicast : isUnicast message = true := decide_eq_true (by omega)
  induction modules generalizing i state with
  | nil => exact .refused state
  | cons module modules ih =>
      cases module with
      | none => exact ih
      | some handler =>
          rw [dispatchFrom, hpassed, listenersFrom]
          dsimp only
          by_cases haccepts :
              0 ≤ (handler state ⟨message, suppliedArguments message args⟩).2
          · rw [if_pos ⟨hunicast, haccepts⟩]
            exact .accepted haccepts
          · rw [if_neg fun hboth => haccepts hboth.2]
            exact .passed (Int.not_le.mp haccepts) ih

/-- Any other code calls no one. -/
theorem dispatchFrom_calls (hmessage : 4 < message) :
    (dispatchFrom message args i modules state).calls = [] := by
  have hpassed := @passedArguments_eq message args
  rw [if_neg (by omega)] at hpassed
  induction modules generalizing i state with
  | nil => rfl
  | cons module modules ih =>
      cases module with
      | none => exact ih
      | some handler =>
          rw [dispatchFrom, hpassed]
          dsimp only
          split
          case isTrue => rfl
          case isFalse => exact ih

/-- Without listeners nobody answers. -/
theorem dispatchFrom_silent (hsilent : listenersFrom i modules = []) :
    dispatchFrom message args i modules state = ⟨state, [], -1⟩ := by
  induction modules generalizing i with
  | nil => rfl
  | cons module modules ih =>
      cases module with
      | none => exact ih hsilent
      | some handler =>
          rw [listenersFrom] at hsilent
          cases hsilent

/-- Listeners that nobody calls break the law. -/
theorem DispatchLaw.silent {out : Outcome State}
    (hlaw : DispatchLaw modules state message args out) (hcalls : out.calls = []) :
    listeners modules = [] := by
  rw [DispatchLaw] at hlaw
  split at hlaw
  case isTrue =>
    cases hlistening : listeners modules with
    | nil => rfl
    | cons listener rest =>
        rw [hlistening] at hlaw
        cases hlaw with
        | accepted => cases hcalls
        | passed => cases hcalls
  case isFalse =>
    rw [hcalls, List.map_nil] at hlaw
    exact List.map_eq_nil_iff.mp hlaw.symm

end Law

/-- The law of dispatch holds for the kernel's own codes.  Any other code calls
nobody, which is right only when nobody listens. -/
theorem vaDispatchMessage_law_iff (modules : List (Option (Handler State))) (state : State)
    (message : ℕ) (args : ℕ → ℕ) :
    DispatchLaw modules state message args (vaDispatchMessage modules state message args) ↔
      message ≤ 4 ∨ listeners modules = [] := by
  rw [vaDispatchMessage]
  constructor
  · intro hlaw
    rcases Nat.lt_or_ge 4 message with hlt | hle
    · exact .inr (hlaw.silent (dispatchFrom_calls hlt))
    · exact .inl hle
  · rintro (hle | hsilent)
    · rw [DispatchLaw, if_pos (by omega)]
      exact dispatchFrom_unicast hle
    · rw [dispatchFrom_silent hsilent, DispatchLaw, hsilent]
      split
      case isTrue => exact .refused state
      case isFalse => rfl

/-- A module that refuses every message. -/
def refusing : Handler Unit := fun state _ => (state, -1)

/-- The modules' code for the removal of a device is accepted by the kernel
itself, before the only listener is called. -/
theorem vaDispatchMessage_deviceRemove :
    Modlib.messageDeviceRemove ∈ Modlib.messages ∧
      (vaDispatchMessage [some refusing] () Modlib.messageDeviceRemove fun _ => 0).calls =
        [] ∧
      (vaDispatchMessage [some refusing] () Modlib.messageDeviceRemove
        fun _ => 0).returned = 0 ∧
      ¬DispatchLaw [some refusing] () Modlib.messageDeviceRemove (fun _ => 0)
        (vaDispatchMessage [some refusing] () Modlib.messageDeviceRemove fun _ => 0) := by
  refine ⟨by decide, rfl, rfl, ?_⟩
  intro hlaw
  have hsilent := hlaw.silent rfl
  cases hsilent

end KimisOS.Modules
