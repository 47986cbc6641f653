import Mathlib

/-!
# Runs of a partial step function

A component is driven by a list of events.  `none` marks a step that has no
result: a call that never returns, or one that leaves the memory it owns.
The rules below lift what one step preserves to what every run preserves.
-/

namespace KimisOS.Run

variable {State Event : Type*}

/-- The state after a list of events, or `none` once some step has no
result. -/
def exec (step : State → Event → Option State) :
    State → List Event → Option State
  | state, [] => some state
  | state, event :: events =>
      match step state event with
      | none => none
      | some next => exec step next events

/-- Every event of the list meets `ok` in the state in which it is taken. -/
def Meets (step : State → Event → Option State) (ok : State → Event → Prop) :
    State → List Event → Prop
  | _, [] => True
  | state, event :: events =>
      ok state event ∧
        match step state event with
        | none => True
        | some next => Meets step ok next events

variable {step : State → Event → Option State} {ok : State → Event → Prop}

@[simp]
theorem exec_nil (state : State) : exec step state [] = some state := rfl

theorem exec_cons (state : State) (event : Event) (events : List Event) :
    exec step state (event :: events) =
      (step state event).bind fun next => exec step next events := by
  change (match step state event with
    | none => none
    | some next => exec step next events) = _
  cases step state event with
  | none => rfl
  | some next => rfl

theorem exec_cons_eq_some {state final : State} {event : Event}
    {events : List Event} :
    exec step state (event :: events) = some final ↔
      ∃ next, step state event = some next ∧
        exec step next events = some final := by
  rw [exec_cons, Option.bind_eq_some_iff]

theorem exec_append_eq_some {state final : State} {before after : List Event} :
    exec step state (before ++ after) = some final ↔
      ∃ middle, exec step state before = some middle ∧
        exec step middle after = some final := by
  induction before generalizing state with
  | nil => simp
  | cons event before ih =>
      rw [List.cons_append, exec_cons_eq_some]
      constructor
      · rintro ⟨next, hstep, hrest⟩
        obtain ⟨middle, hbefore, hafter⟩ := ih.mp hrest
        exact ⟨middle, exec_cons_eq_some.mpr ⟨next, hstep, hbefore⟩, hafter⟩
      · rintro ⟨middle, hbefore, hafter⟩
        obtain ⟨next, hstep, hrest⟩ := exec_cons_eq_some.mp hbefore
        exact ⟨next, hstep, ih.mpr ⟨middle, hrest, hafter⟩⟩

theorem meets_cons {state next : State} {event : Event} {events : List Event}
    (hmeets : Meets step ok state (event :: events))
    (hstep : step state event = some next) :
    ok state event ∧ Meets step ok next events := by
  obtain ⟨hok, hrest⟩ := hmeets
  rw [hstep] at hrest
  exact ⟨hok, hrest⟩

theorem meets_cons_intro {state : State} {event : Event} {events : List Event}
    (hok : ok state event)
    (hrest : ∀ next, step state event = some next → Meets step ok next events) :
    Meets step ok state (event :: events) := by
  refine ⟨hok, ?_⟩
  cases hstep : step state event with
  | none => trivial
  | some next => exact hrest next hstep

/-- The invariant rule: what every admissible step preserves holds in every
state an admissible run reaches. -/
theorem exec_invariant {Inv : State → Prop}
    (hpreserve : ∀ state event next, Inv state → ok state event →
      step state event = some next → Inv next)
    {events : List Event} {state final : State} (hinit : Inv state)
    (hmeets : Meets step ok state events)
    (hrun : exec step state events = some final) : Inv final := by
  induction events generalizing state with
  | nil =>
      obtain rfl : state = final := by simpa using hrun
      exact hinit
  | cons event events ih =>
      obtain ⟨next, hstep, htail⟩ := exec_cons_eq_some.mp hrun
      obtain ⟨hok, hrest⟩ := meets_cons hmeets hstep
      exact ih (hpreserve state event next hinit hok hstep) hrest htail

theorem meets_of_mem {events : List Event} (hok : ∀ event ∈ events, ∀ state, ok state event)
    (state : State) : Meets step ok state events := by
  induction events generalizing state with
  | nil => trivial
  | cons event events ih =>
      refine meets_cons_intro (hok event List.mem_cons_self state) fun next _ => ?_
      exact ih (fun later hlater => hok later (List.mem_cons_of_mem _ hlater)) next

theorem meets_of_forall (hok : ∀ state event, ok state event)
    (state : State) (events : List Event) : Meets step ok state events :=
  meets_of_mem (fun event _ state => hok state event) state

/-- The invariant rule for steps that need no guard. -/
theorem exec_preserves {Inv : State → Prop}
    (hpreserve : ∀ state event next, Inv state →
      step state event = some next → Inv next)
    {events : List Event} {state final : State} (hinit : Inv state)
    (hrun : exec step state events = some final) : Inv final := by
  have hguarded : ∀ state event next, Inv state → True →
      step state event = some next → Inv next := by
    intro state event next hinv _ hstep
    exact hpreserve state event next hinv hstep
  exact exec_invariant hguarded hinit
    (meets_of_forall (fun _ _ => trivial) state events) hrun

/-- The progress rule: when every admissible step has a result that keeps the
invariant, so has every admissible run. -/
theorem exec_total {Inv : State → Prop}
    (hprogress : ∀ state event, Inv state → ok state event →
      ∃ next, step state event = some next ∧ Inv next)
    {events : List Event} {state : State} (hinit : Inv state)
    (hmeets : Meets step ok state events) :
    ∃ final, exec step state events = some final ∧ Inv final := by
  induction events generalizing state with
  | nil => exact ⟨state, rfl, hinit⟩
  | cons event events ih =>
      obtain ⟨next, hstep, hnext⟩ := hprogress state event hinit hmeets.1
      obtain ⟨final, hrun, hfinal⟩ := ih hnext (meets_cons hmeets hstep).2
      exact ⟨final, exec_cons_eq_some.mpr ⟨next, hstep, hrun⟩, hfinal⟩

/-- The simulation rule: when every admissible step has a result that follows
an abstract step, every admissible run follows the abstract run. -/
theorem exec_simulates {Abstract : Type*} {next : Abstract → Event → Abstract}
    {Related : State → Abstract → Prop}
    (hsimulates : ∀ state abstract event, Related state abstract →
      ok state event → ∃ reached, step state event = some reached ∧
        Related reached (next abstract event))
    {events : List Event} {state : State} {abstract : Abstract}
    (hinit : Related state abstract) (hmeets : Meets step ok state events) :
    ∃ final, exec step state events = some final ∧
      Related final (events.foldl next abstract) := by
  induction events generalizing state abstract with
  | nil => exact ⟨state, rfl, hinit⟩
  | cons event events ih =>
      obtain ⟨reached, hstep, hrelated⟩ :=
        hsimulates state abstract event hinit hmeets.1
      obtain ⟨final, hrun, hfinal⟩ := ih hrelated (meets_cons hmeets hstep).2
      exact ⟨final, exec_cons_eq_some.mpr ⟨reached, hstep, hrun⟩, hfinal⟩

/-- The exactness rule, for steps that callers are promised to take only when
they are `allowed`: when an admissible step keeps the invariant, and a step that
ends in a good state was admissible, a run is admissible exactly if it passes
through good states only. -/
theorem meets_iff_forall_good {Inv Good : State → Prop} {allowed : State → Event → Prop}
    (hgood : ∀ state, Inv state → Good state)
    (hkeep : ∀ state event next, Inv state → allowed state event → ok state event →
      step state event = some next → Inv next)
    (hbad : ∀ state event next, Inv state → allowed state event →
      step state event = some next → Good next → ok state event)
    {events : List Event} {state final : State} (hinit : Inv state)
    (hallowed : Meets step allowed state events)
    (hrun : exec step state events = some final) :
    Meets step ok state events ↔
      ∀ n reached, exec step state (events.take n) = some reached →
        Good reached := by
  constructor
  · intro hmeets n reached hreached
    refine hgood reached ?_
    clear hrun
    induction events generalizing state n with
    | nil =>
        obtain rfl : state = reached := by simpa using hreached
        exact hinit
    | cons event events ih =>
        cases n with
        | zero =>
            obtain rfl : state = reached := by simpa using hreached
            exact hinit
        | succ n =>
            rw [List.take_succ_cons, exec_cons_eq_some] at hreached
            obtain ⟨next, hstep, hreached⟩ := hreached
            obtain ⟨hok, hrest⟩ := meets_cons hmeets hstep
            obtain ⟨hguard, hguards⟩ := meets_cons hallowed hstep
            exact ih (hkeep state event next hinit hguard hok hstep) hguards hrest n hreached
  · intro hall
    induction events generalizing state with
    | nil => trivial
    | cons event events ih =>
        obtain ⟨next, hstep, htail⟩ := exec_cons_eq_some.mp hrun
        obtain ⟨hguard, hrest⟩ := meets_cons hallowed hstep
        have hnext : Good next := by
          refine hall 1 next ?_
          rw [List.take_succ_cons, exec_cons_eq_some]
          exact ⟨next, hstep, rfl⟩
        have hok := hbad state event next hinit hguard hstep hnext
        refine meets_cons_intro hok ?_
        intro next' hstep'
        obtain rfl : next = next' := by
          rw [hstep] at hstep'
          exact Option.some.inj hstep'
        refine ih (hkeep state event next hinit hguard hok hstep) hrest htail ?_
        intro n reached hreached
        refine hall (n + 1) reached ?_
        rw [List.take_succ_cons, exec_cons_eq_some]
        exact ⟨next, hstep, hreached⟩

/-- The exactness rule: when a step keeps the invariant exactly if it is
admissible, a run is admissible exactly if the invariant holds in every state
it passes through. -/
theorem meets_iff_forall_prefix {Inv : State → Prop}
    (hexact : ∀ state event next, Inv state →
      step state event = some next → (ok state event ↔ Inv next))
    {events : List Event} {state final : State} (hinit : Inv state)
    (hrun : exec step state events = some final) :
    Meets step ok state events ↔
      ∀ n reached, exec step state (events.take n) = some reached →
        Inv reached := by
  refine meets_iff_forall_good (fun _ hinv => hinv) ?_ ?_ hinit
    (meets_of_forall (fun _ _ => trivial) state events) hrun
  · intro state event next hinv _ hok hstep
    exact (hexact state event next hinv hstep).mp hok
  · intro state event next hinv _ hstep hnext
    exact (hexact state event next hinv hstep).mpr hnext

/-- A run through one of its events: the state before, the state after, and what
is left to do. -/
theorem exec_at {events : List Event} {state final : State} {n : ℕ} {event : Event}
    (hrun : exec step state events = some final)
    (hmeets : Meets step ok state events) (hevent : events[n]? = some event) :
    ∃ before after, exec step state (events.take n) = some before ∧
      step before event = some after ∧ ok before event ∧
      exec step after (events.drop (n + 1)) = some final ∧
      Meets step ok after (events.drop (n + 1)) := by
  induction events generalizing state n with
  | nil => simp at hevent
  | cons head events ih =>
      obtain ⟨next, hstep, htail⟩ := exec_cons_eq_some.mp hrun
      obtain ⟨hok, hrest⟩ := meets_cons hmeets hstep
      cases n with
      | zero =>
          obtain rfl : head = event := by simpa using hevent
          exact ⟨state, next, rfl, hstep, hok, htail, hrest⟩
      | succ n =>
          obtain ⟨before, after, hbefore, hafter⟩ := ih htail hrest (by simpa using hevent)
          refine ⟨before, after, ?_, hafter⟩
          rw [List.take_succ_cons, exec_cons_eq_some]
          exact ⟨next, hstep, hbefore⟩

/-- A run stops at every event on its way. -/
theorem exec_take {events : List Event} {state final : State}
    (hrun : exec step state events = some final) (n : ℕ) :
    ∃ reached, exec step state (events.take n) = some reached := by
  induction events generalizing state n with
  | nil => exact ⟨state, by simp⟩
  | cons event events ih =>
      obtain ⟨next, hstep, htail⟩ := exec_cons_eq_some.mp hrun
      cases n with
      | zero => exact ⟨state, rfl⟩
      | succ n =>
          obtain ⟨reached, hreached⟩ := ih htail n
          exact ⟨reached, exec_cons_eq_some.mpr ⟨next, hstep, hreached⟩⟩

theorem Meets.take {events : List Event} {state : State}
    (hmeets : Meets step ok state events) (n : ℕ) :
    Meets step ok state (events.take n) := by
  induction events generalizing state n with
  | nil => simpa using hmeets
  | cons event events ih =>
      cases n with
      | zero => trivial
      | succ n =>
          refine meets_cons_intro hmeets.1 ?_
          intro next hstep
          exact ih (meets_cons hmeets hstep).2 n

/-- An invariant of admissible runs carries over to every law that follows from
it. -/
theorem meets_of_invariant {Inv : State → Prop} {law : State → Event → Prop}
    (hlaw : ∀ state event, Inv state → ok state event → law state event)
    (hkeep : ∀ state event next, Inv state → ok state event →
      step state event = some next → Inv next)
    {events : List Event} {state : State} (hinit : Inv state)
    (hmeets : Meets step ok state events) : Meets step law state events := by
  induction events generalizing state with
  | nil => trivial
  | cons event events ih =>
      refine meets_cons_intro (hlaw state event hinit hmeets.1) ?_
      intro next hstep
      obtain ⟨hok, hrest⟩ := meets_cons hmeets hstep
      exact ih (hkeep state event next hinit hok hstep) hrest

theorem meets_mono {law : State → Event → Prop}
    (himp : ∀ state event, ok state event → law state event)
    {events : List Event} {state : State} (hmeets : Meets step ok state events) :
    Meets step law state events :=
  meets_of_invariant (fun state event (_ : True) hok => himp state event hok)
    (fun _ _ _ _ _ _ => trivial) trivial hmeets

end KimisOS.Run
