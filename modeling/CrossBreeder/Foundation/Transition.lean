import Mathlib.Tactic.Common

/-!
# Runs of a system of labelled steps

A system has initial states and a step relation labelled by events. A run may be restricted to steps
that meet a condition on the state before the step and on the event: `Reachable allowed` is the set
of states such runs reach, and `Reachable.invariant` is the induction rule for it.

`System.ofStep` is the system of a step function that may stop. A list of events can be run in it by
evaluation (`runSteps`), and `exists_reachable_of_runSteps` turns such a run into a reachable state.
-/

namespace CrossBreeder.Foundation

variable {State Event : Type*}

structure System (State Event : Type*) where
  initial : State → Prop
  step : State → Event → State → Prop

inductive Reachable (sys : System State Event) (allowed : State → Event → Prop) : State → Prop
  | start {state : State} (hinitial : sys.initial state) : Reachable sys allowed state
  | step {state next : State} {event : Event} (hreach : Reachable sys allowed state)
      (hallowed : allowed state event) (hstep : sys.step state event next) :
      Reachable sys allowed next

namespace Reachable

variable {sys : System State Event} {allowed : State → Event → Prop}

/-- The invariant rule: what holds initially and is kept by every allowed step from a reached state
holds in every reached state. -/
theorem invariant (Inv : State → Prop) (hinitial : ∀ state, sys.initial state → Inv state)
    (hstep : ∀ state event next, Reachable sys allowed state → Inv state → allowed state event →
      sys.step state event next → Inv next) {state : State}
    (hreach : Reachable sys allowed state) : Inv state := by
  induction hreach with
  | start hinit => exact hinitial _ hinit
  | step hprevious hallowed hnext ih => exact hstep _ _ _ hprevious ih hallowed hnext

theorem mono {other : State → Event → Prop}
    (hmore : ∀ state event, allowed state event → other state event)
    {state : State} (hreach : Reachable sys allowed state) : Reachable sys other state := by
  induction hreach with
  | start hinitial => exact .start hinitial
  | step _ hallowed hstep ih => exact ih.step (hmore _ _ hallowed) hstep

end Reachable

/-- The system of a step function that may stop. -/
def System.ofStep (initial : State → Prop) (next : State → Event → Option State) :
    System State Event where
  initial := initial
  step state event following := next state event = some following

def runSteps (next : State → Event → Option State) : State → List Event → Option State
  | state, [] => some state
  | state, event :: events => (next state event).bind fun following ↦ runSteps next following events

theorem runSteps_append (next : State → Event → Option State) (first second : List Event) :
    ∀ state, runSteps next state (first ++ second) =
      (runSteps next state first).bind fun middle ↦ runSteps next middle second := by
  induction first with
  | nil => exact fun _ ↦ rfl
  | cons event first ih =>
    intro state
    simp only [List.cons_append, runSteps, ih, Option.bind_assoc]

theorem Reachable.of_runSteps {initial : State → Prop} {next : State → Event → Option State}
    {allowed : State → Event → Prop} (hallowed : ∀ state event, allowed state event)
    (events : List Event) :
    ∀ {state last : State}, Reachable (System.ofStep initial next) allowed state →
      runSteps next state events = some last →
      Reachable (System.ofStep initial next) allowed last := by
  induction events with
  | nil =>
    intro state last hreach hrun
    obtain rfl := Option.some.inj hrun
    exact hreach
  | cons event events ih =>
    intro state last hreach hrun
    obtain ⟨following, hnext, hrest⟩ := Option.bind_eq_some_iff.mp hrun
    exact ih (hreach.step (hallowed _ _) hnext) hrest

theorem exists_reachable_of_runSteps {initial : State → Prop} {next : State → Event → Option State}
    {state : State} (hinitial : initial state) {events : List Event} {test : State → Bool}
    (hrun : (runSteps next state events).any test = true) :
    ∃ last, Reachable (System.ofStep initial next) (fun _ _ ↦ True) last ∧ test last = true := by
  obtain ⟨last, hlast, htest⟩ := (Option.any_eq_true _ _).mp hrun
  exact ⟨last, (Reachable.start hinitial).of_runSteps (fun _ _ ↦ trivial) events hlast, htest⟩

def guardStep (allowed : State → Event → Prop) [∀ state event, Decidable (allowed state event)]
    (next : State → Event → Option State) (state : State) (event : Event) : Option State :=
  if allowed state event then next state event else none

/-- The end of a run that is stopped before steps that are not allowed is reached by allowed steps.
-/
theorem Reachable.of_guardStep {initial : State → Prop} {next : State → Event → Option State}
    {allowed : State → Event → Prop} [∀ state event, Decidable (allowed state event)]
    {state : State}
    (hreach : Reachable (System.ofStep initial (guardStep allowed next)) (fun _ _ ↦ True) state) :
    Reachable (System.ofStep initial next) allowed state := by
  induction hreach with
  | start hinitial => exact .start hinitial
  | @step state following event _ _ hstep ih =>
    change guardStep allowed next state event = some following at hstep
    unfold guardStep at hstep
    split_ifs at hstep with hallowed
    exact ih.step hallowed hstep

end CrossBreeder.Foundation
