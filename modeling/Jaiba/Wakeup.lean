import Jaiba.Control

/-!
# Waiting for a change (`FlowControl::changed`)

A waiter reads the state, and where it decides to wait, it subscribes to the watch channel and
waits for a version newer than the one it finds there. The version goes up with every
transition; one between the read and the subscription is behind the waiter.
-/

namespace Jaiba.Control.Watch
open Jaiba.Lib

inductive Waiter where
  /-- `run_inner` of a run, paused with no task -/
  | engine (r : ℕ)
  /-- a call of `wait_for_terminal` -/
  | client (i : ℕ)
  deriving Repr, DecidableEq

inductive Wait where
  | idle
  /-- has read the state, and has not subscribed yet -/
  | observed (state : FlowLifecycle)
  /-- in `changed`, for a version newer than `seen` -/
  | subscribed (state : FlowLifecycle) (seen : ℕ)
  deriving Repr, DecidableEq

/-- The control with the version of its watch channel. -/
structure State where
  flow : Control.State
  version : ℕ
  waits : Waiter → Wait

def State.start : State := ⟨Control.State.init, 0, fun _ => .idle⟩

inductive Action where
  | flow (a : Control.Action)
  | observe (w : Waiter)
  | subscribe (w : Waiter)
  | wake (w : Waiter)
  /-- the future of a `wait_for_terminal` is dropped -/
  | cancel (i : ℕ)
  deriving Repr, DecidableEq

/-- The steps that call `transition`. -/
def sends (s : Control.State) : Control.Action → Bool
  | .tick | .run => false
  | .start => !s.busy
  | .caller i .write =>
    match s.callers i with
    | .pausing | .resuming | .draining _ => true
    | _ => false
  | .caller i .stopped => s.callers i = .stopping
  | .caller _ _ => false
  | .engine r .starting => (s.runs r).pc = .spawned
  | .engine r .running => (s.runs r).pc = .initialising
  | .engine r .conclude =>
    match (s.runs r).pc with
    | .finishing _ => true
    | _ => false
  | .engine _ _ => false

namespace State

variable (s : State)

/-- The engine of a run is at the head of its loop, with no task and the flow paused. -/
def pauses (r : ℕ) : Bool :=
  (s.flow.runs r).pc = .looping && (s.flow.runs r).tasks = 0 && s.flow.control.state = .paused

/-- The waiter is there: its run was not aborted. -/
def present : Waiter → Bool
  | .engine r => (s.flow.runs r).pc = .looping
  | .client _ => true

/-- An engine that waits does nothing else. -/
def free : Control.Action → Bool
  | .engine r .head => s.waits (.engine r) = .idle && !s.pauses r
  | _ => true

def setWait (w : Waiter) (wait : Wait) : State :=
  { s with waits := Function.update s.waits w wait }

/-- The read of the state, and whether to wait. -/
def observe (w : Waiter) : Option State :=
  if s.waits w ≠ .idle then none
  else
    match w with
    | .engine r => if s.pauses r then some (s.setWait w (.observed .paused)) else none
    | .client _ =>
      if s.flow.control.state = .stopped || s.flow.control.state = .failed then some s
      else some (s.setWait w (.observed s.flow.control.state))

end State

def step (s : State) : Action → Option State
  | .flow a =>
    if s.free a then
      (Control.State.step s.flow a).map fun flow =>
        { s with flow := flow, version := s.version + if sends s.flow a then 1 else 0 }
    else none
  | .observe w => s.observe w
  | .subscribe w =>
    match s.waits w with
    | .observed state =>
      if s.present w then some (s.setWait w (.subscribed state s.version)) else none
    | _ => none
  | .wake w =>
    match s.waits w with
    | .subscribed _ seen =>
      if s.present w && seen < s.version then some (s.setWait w .idle) else none
    | _ => none
  | .cancel i => if s.waits (.client i) = .idle then none else some (s.setWait (.client i) .idle)

/-- The control, its callers and engines, and those who wait for a change. -/
def machine : Machine State Action := ⟨step⟩

variable {s t : State}

/-! ### Transitions -/

/-- The cell is written by the steps that send, and by no other. -/
theorem control_of_step {s t : Control.State} {a : Control.Action}
    (hs : Control.State.step s a = some t) :
    (sends s a = false → t.control = s.control) ∧
    (sends s a = true → ∃ state error, t.control = s.control.transition s.clock state error) := by
  cases a with
  | tick =>
    cases hs
    exact ⟨fun _ => rfl, fun h => by cases h⟩
  | run =>
    cases hs
    exact ⟨fun _ => rfl, fun h => by cases h⟩
  | start =>
    simp only [Control.State.step] at hs
    split_ifs at hs with hbusy
    · cases hs
      exact ⟨fun _ => rfl, fun h => by simp [sends, hbusy] at h⟩
    · cases hs
      exact ⟨fun h => by simp [sends, hbusy] at h, fun _ => ⟨_, _, rfl⟩⟩
  | caller i a =>
    change Control.State.callerStep s i a = some t at hs
    cases a with
    | pause | resume | drain | stop =>
      simp only [Control.State.callerStep] at hs
      split_ifs at hs <;> cases hs <;> exact ⟨fun _ => rfl, fun h => by cases h⟩
    | write =>
      simp only [Control.State.callerStep] at hs
      split at hs
      next hc =>
        cases hs
        exact ⟨fun h => by simp [sends, hc] at h, fun _ => ⟨_, _, rfl⟩⟩
      next hc =>
        cases hs
        exact ⟨fun h => by simp [sends, hc] at h, fun _ => ⟨_, _, rfl⟩⟩
      next stop hc =>
        cases hs
        exact ⟨fun h => by simp [sends, hc] at h, fun _ => ⟨_, _, rfl⟩⟩
      · cases hs
    | stopped =>
      simp only [Control.State.callerStep] at hs
      split at hs
      next hc =>
        cases hs
        exact ⟨fun h => by simp [sends, hc] at h, fun _ => ⟨_, _, rfl⟩⟩
      · cases hs
    | take | joined | timeout _ | cancel =>
      refine ⟨fun _ => ?_, fun h => by cases h⟩
      simp only [Control.State.callerStep] at hs
      split at hs <;> try split_ifs at hs
      all_goals cases hs
      all_goals rfl
  | engine r a =>
    change Control.State.runStep s r a = some t at hs
    cases a with
    | starting | running =>
      simp only [Control.State.runStep] at hs
      split at hs
      next hpc =>
        cases hs
        exact ⟨fun h => by simp [sends, hpc] at h, fun _ => ⟨_, _, rfl⟩⟩
      · cases hs
    | conclude =>
      simp only [Control.State.runStep] at hs
      split at hs
      next hpc =>
        cases hs
        exact ⟨fun h => by simp [sends, hpc] at h, fun _ => ⟨_, _, rfl⟩⟩
      next error hpc =>
        cases hs
        exact ⟨fun h => by simp [sends, hpc] at h, fun _ => ⟨_, _, rfl⟩⟩
      · cases hs
    | initialisationFailed _ | head | schedule | startTask | scheduled | join | select | leave _ =>
      refine ⟨fun _ => ?_, fun h => by cases h⟩
      simp only [Control.State.runStep] at hs
      split at hs <;> try split_ifs at hs
      all_goals cases hs
      all_goals rfl

/-! ### What a step does -/

theorem step_flow {a : Control.Action} (hs : step s (.flow a) = some t) : s.free a = true ∧
    ∃ flow, Control.State.step s.flow a = some flow ∧
      t = ⟨flow, s.version + if sends s.flow a then 1 else 0, s.waits⟩ := by
  obtain ⟨hfree, hs⟩ := Option.ite_none_right_eq_some.mp hs
  obtain ⟨flow, hflow, rfl⟩ := Option.map_eq_some_iff.mp hs
  exact ⟨hfree, flow, hflow, rfl⟩

theorem step_observe {w : Waiter} (hs : step s (.observe w) = some t) :
    t = s ∨ ∃ state, t = s.setWait w (.observed state) := by
  simp only [step, State.observe] at hs
  split at hs
  · cases hs
  · split at hs
    · obtain ⟨-, hs⟩ := Option.ite_none_right_eq_some.mp hs
      exact .inr ⟨_, (Option.some.inj hs).symm⟩
    · split at hs
      · exact .inl (Option.some.inj hs).symm
      · exact .inr ⟨_, (Option.some.inj hs).symm⟩

theorem step_subscribe {w : Waiter} (hs : step s (.subscribe w) = some t) : ∃ state,
    s.waits w = .observed state ∧ s.present w = true ∧
      t = s.setWait w (.subscribed state s.version) := by
  simp only [step] at hs
  split at hs
  next state hstate =>
    obtain ⟨hpresent, hs⟩ := Option.ite_none_right_eq_some.mp hs
    exact ⟨state, hstate, hpresent, (Option.some.inj hs).symm⟩
  · cases hs

theorem step_wake {w : Waiter} (hs : step s (.wake w) = some t) : t = s.setWait w .idle := by
  simp only [step] at hs
  split at hs
  · obtain ⟨-, hs⟩ := Option.ite_none_right_eq_some.mp hs
    exact (Option.some.inj hs).symm
  · cases hs

theorem step_cancel {i : ℕ} (hs : step s (.cancel i) = some t) :
    t = s.setWait (.client i) .idle := by
  simp only [step] at hs
  split at hs
  · cases hs
  · exact (Option.some.inj hs).symm

/-! ### Lost wake-ups -/

/-- The waiter is blocked in `changed` although the state is no longer the one it read. -/
def Missed (s : State) (w : Waiter) : Prop :=
  s.present w = true ∧ ∃ state, s.waits w = .subscribed state s.version ∧
    s.flow.control.state ≠ state

/-- Steps that begin something new: a call, a run, the passing of time. -/
def Action.begins : Action → Bool
  | .flow .tick | .flow .start | .flow .run => true
  | .flow (.caller _ .pause) | .flow (.caller _ .resume) => true
  | .flow (.caller _ .drain) | .flow (.caller _ .stop) => true
  | .observe (.client _) => true
  | _ => false

/-- Something that has begun can still go on. -/
def Due (s : State) : Prop := ∃ a t, a.begins = false ∧ step s a = some t

/-- The condition on a step: a waiter subscribes while the state is still the one it read. -/
def Timely (s : State) : Action → Prop
  | .subscribe w => ∀ state, s.waits w = .observed state → s.flow.control.state = state
  | _ => True

/-- A waiter that has seen the latest version has read the present state. -/
def Inv (s : State) : Prop :=
  ∀ w state seen, s.waits w = .subscribed state seen →
    seen ≤ s.version ∧ (seen = s.version → s.flow.control.state = state)

theorem Inv.setWait (h : Inv s) (w : Waiter) (wait : Wait)
    (hwait : ∀ state seen, wait = .subscribed state seen →
      seen = s.version ∧ s.flow.control.state = state) : Inv (s.setWait w wait) := by
  intro w' state seen hw'
  change Function.update s.waits w wait w' = _ at hw'
  by_cases hw : w' = w
  · rw [hw, Function.update_self] at hw'
    obtain ⟨rfl, hstate⟩ := hwait state seen hw'
    exact ⟨Nat.le_refl _, fun _ => hstate⟩
  · rw [Function.update_of_ne hw] at hw'
    exact h w' state seen hw'

theorem step_inv (h : Inv s) {a : Action} (hok : Timely s a) (hs : step s a = some t) : Inv t := by
  cases a with
  | flow b =>
    obtain ⟨-, flow, hflow, rfl⟩ := step_flow hs
    intro w state seen hw
    obtain ⟨hle, hsame⟩ := h w state seen hw
    dsimp only
    cases hsends : sends s.flow b with
    | true =>
      rw [if_pos rfl]
      exact ⟨by omega, fun hseen => by omega⟩
    | false =>
      rw [if_neg Bool.false_ne_true, Nat.add_zero, (control_of_step hflow).1 hsends]
      exact ⟨hle, hsame⟩
  | observe w =>
    obtain rfl | ⟨state, rfl⟩ := step_observe hs
    · exact h
    · exact h.setWait w _ fun state' seen hsub => by cases hsub
  | subscribe w =>
    obtain ⟨state, hobserved, -, rfl⟩ := step_subscribe hs
    refine h.setWait w _ fun state' seen hsub => ?_
    cases hsub
    exact ⟨rfl, hok state hobserved⟩
  | wake w =>
    rw [step_wake hs]
    exact h.setWait w _ fun state seen hsub => by cases hsub
  | cancel i =>
    rw [step_cancel hs]
    exact h.setWait _ _ fun state seen hsub => by cases hsub

theorem reach_inv (h : machine.Reach Timely .start s) : Inv s :=
  h.invariant (fun _ _ _ hw => by cases hw) fun _ _ _ hu hok hs => step_inv hu hok hs

/-- No caller is in a call, and the only run is at the head of its loop and waits for a version
that has not come. -/
structure Stuck (s : State) : Prop where
  callers : ∀ i, s.flow.callers i = .idle
  run : (s.flow.runs 0).pc = .looping
  absent : ∀ r, r ≠ 0 → (s.flow.runs r).pc = .absent
  waits : ∃ state, s.waits (.engine 0) = .subscribed state s.version
  alone : ∀ w, w ≠ .engine 0 → s.waits w = .idle

theorem Stuck.not_due (h : Stuck s) : ¬ Due s := by
  obtain ⟨state, hwait⟩ := h.waits
  rintro ⟨a, t, hbegins, hs⟩
  cases a with
  | flow b =>
    obtain ⟨hfree, flow, hflow, -⟩ := step_flow hs
    cases b with
    | tick | start | run => cases hbegins
    | caller i c =>
      change Control.State.callerStep s.flow i c = some flow at hflow
      cases c with
      | pause | resume | drain | stop => cases hbegins
      | write | take | joined | timeout _ | stopped | cancel =>
        simp [Control.State.callerStep, h.callers i] at hflow
    | engine r c =>
      change Control.State.runStep s.flow r c = some flow at hflow
      by_cases hr : r = 0
      · subst hr
        cases c with
        | head =>
          rw [State.free, hwait] at hfree
          cases hfree
        | starting | initialisationFailed _ | running | schedule | startTask | scheduled | join
        | select | leave _ | conclude => simp [Control.State.runStep, h.run] at hflow
      · cases c <;> simp [Control.State.runStep, h.absent r hr] at hflow
  | observe w =>
    cases w with
    | client i => cases hbegins
    | engine r =>
      by_cases hr : r = 0
      · subst hr
        simp [step, State.observe, hwait] at hs
      · simp [step, State.observe, State.pauses, h.absent r hr] at hs
  | subscribe w =>
    obtain ⟨state', hobserved, -, -⟩ := step_subscribe hs
    by_cases hw : w = .engine 0
    · rw [hw, hwait] at hobserved
      cases hobserved
    · rw [h.alone w hw] at hobserved
      cases hobserved
  | wake w =>
    by_cases hw : w = .engine 0
    · subst hw
      simp [step, hwait] at hs
    · simp [step, h.alone w hw] at hs
  | cancel i =>
    have hidle : s.waits (.client i) = .idle := h.alone _ Waiter.noConfusion
    simp [step, hidle] at hs

/-- A pause and the resume that falls between the read and the subscription of the engine. -/
def resumeBetween : List Action :=
  [.flow .start, .flow (.engine 0 .starting), .flow (.engine 0 .running),
    .flow (.caller 0 .pause), .flow (.caller 0 .write), .observe (.engine 0),
    .flow (.caller 0 .resume), .flow (.caller 0 .write), .subscribe (.engine 0)]

/-- The flow is `RUNNING`, its engine waits for a change, and nothing that has begun can go on. -/
theorem resume_missed : ∃ s, machine.Reachable .start s ∧ Missed s (.engine 0) ∧ ¬ Due s := by
  obtain ⟨s, hs⟩ : ∃ s, machine.exec .start resumeBetween = some s := ⟨_, rfl⟩
  refine ⟨s, Machine.Reach.of_exec resumeBetween hs fun _ _ _ => trivial, ?_, ?_⟩
  · cases hs
    exact ⟨rfl, .paused, rfl, fun h => by cases h⟩
  · apply Stuck.not_due
    cases hs
    constructor
    · intro i
      by_cases hi : i = 0
      · subst hi
        rfl
      · simp [State.setWait, Control.State.setCaller, Control.State.goto, Control.State.setRun,
          Control.State.write, Control.State.spawn, State.start, Control.State.init]
    · rfl
    · intro r hr
      simp [State.setWait, Control.State.setCaller, Control.State.goto, Control.State.setRun,
        Control.State.write, Control.State.spawn, State.start, Control.State.init, Run.absent, hr]
    · exact ⟨_, rfl⟩
    · intro w hw
      simp [State.setWait, State.start, hw]

/-- Where every waiter subscribes while the state is the one it read, none is ever blocked with
another state; a waiter that subscribes later than that is. -/
theorem no_lost_wakeup (s : State) (w : Waiter) :
    (machine.Reach Timely .start s → ¬ Missed s w) ∧
    ∀ t, step s (.subscribe w) = some t → ¬ Timely s (.subscribe w) → Missed t w := by
  constructor
  · rintro h ⟨-, state, hw, hne⟩
    exact hne ((reach_inv h w state s.version hw).2 rfl)
  · intro t hs hlate
    obtain ⟨state, hobserved, hpresent, rfl⟩ := step_subscribe hs
    refine ⟨hpresent, state, Function.update_self w _ s.waits, fun hsame => hlate ?_⟩
    intro state' hstate'
    rw [hobserved] at hstate'
    cases hstate'
    exact hsame

/-- A client waits for the end of a run that is drained meanwhile. -/
def waitForDrain : List Action :=
  [.flow .start, .flow (.engine 0 .starting), .flow (.engine 0 .running), .observe (.client 0),
    .subscribe (.client 0)]

def timelyGuard (s : State) : Action → Bool
  | .subscribe w => s.waits w = .observed s.flow.control.state
  | _ => true

theorem timely_of_guard (s : State) (a : Action) (h : timelyGuard s a = true) : Timely s a := by
  cases a with
  | subscribe w =>
    intro state hstate
    have hobserved := of_decide_eq_true h
    rw [hstate] at hobserved
    exact (Wait.observed.inj hobserved).symm
  | flow b => exact trivial
  | observe w => exact trivial
  | wake w => exact trivial
  | cancel i => exact trivial

/-- The drain wakes the client that waits. -/
theorem drain_noticed : ∃ s, machine.Reach Timely .start s ∧
    s.waits (.client 0) = .subscribed .running s.version ∧ ¬ Missed s (.client 0) ∧
    (machine.exec s [.flow (.caller 0 .drain), .flow (.caller 0 .write),
      .wake (.client 0)]).isSome := by
  have hrun : ((machine.guarded timelyGuard).exec .start waitForDrain).any (fun s =>
      decide (s.waits (.client 0) = .subscribed .running s.version) &&
        (machine.exec s [.flow (.caller 0 .drain), .flow (.caller 0 .write),
          .wake (.client 0)]).isSome) = true := by decide +kernel
  obtain ⟨s, hs, hrun⟩ := (Option.any_eq_true _ _).mp hrun
  obtain ⟨hwait, hwake⟩ := Bool.and_eq_true_iff.mp hrun
  have hreach := Machine.Reach.of_guarded timely_of_guard waitForDrain hs
  exact ⟨s, hreach, of_decide_eq_true hwait, (no_lost_wakeup s (.client 0)).1 hreach, hwake⟩

end Jaiba.Control.Watch
