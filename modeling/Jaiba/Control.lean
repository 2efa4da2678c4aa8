import Mathlib.Logic.Function.Basic
import Jaiba.Lib.Machine

/-!
# Flow control (`engine/control.rs`, `engine/supervisor.rs`, `executor/mod.rs`)

One `FlowControl` cell, the callers of `pause`, `resume`, `drain` and
`stop_gracefully`, and the engines that write the same cell. A call that reads
the cell and then writes it takes two steps; what each of them does to the cell
is one step of the machine.
-/

namespace Jaiba.Control
open Jaiba.Lib

/-- Observable lifecycle of one flow execution. -/
inductive FlowLifecycle where
  | stopped | starting | running | paused | draining | failed
  deriving Repr, DecidableEq

/-- The states `drain` accepts. -/
def FlowLifecycle.live : FlowLifecycle → Bool
  | .running | .paused | .starting => true
  | _ => false

structure FlowControl where
  state : FlowLifecycle
  lastError : Option String
  changedAt : ℕ
  deriving Repr, DecidableEq

namespace FlowControl

def transition (c : FlowControl) (now : ℕ) (state : FlowLifecycle) (error : Option String) :
    FlowControl where
  state := state
  lastError :=
    if error.isSome then error
    else if state = .starting ∨ state = .running then none
    else c.lastError
  changedAt := now

end FlowControl

/-- Where a caller of the control operations stands. -/
inductive Caller where
  | idle
  /-- `pause` has read `RUNNING` -/
  | pausing
  /-- `resume` has read `PAUSED` -/
  | resuming
  /-- `drain` has read a live state; `stop` when `stop_gracefully` called it -/
  | draining (stop : Bool)
  /-- `stop_gracefully` before it takes the task handle -/
  | taking
  /-- `stop_gracefully` awaiting the handle it took -/
  | waiting (run : ℕ)
  /-- `stop_gracefully` before `control.stopped()` -/
  | stopping
  deriving Repr, DecidableEq

/-- Where one execution of `run_started` stands. -/
inductive RunPc where
  | absent
  /-- created, `run_started` not yet polled -/
  | spawned
  /-- inside `run_inner`, before `control.running()` -/
  | initialising
  /-- at the head of the loop -/
  | looping
  /-- past the head, before `schedule_available` -/
  | entered
  /-- inside `schedule_available` past its state check; `late` when a drain had
  already returned true in this run as the call began -/
  | scheduling (late : Bool)
  /-- at the `select!` -/
  | selecting
  /-- `run_inner` has returned, the cell is not yet written -/
  | finishing (error : Option String)
  | done
  deriving Repr, DecidableEq

/-- One execution of `run_started`. `drained` and `lateStarts` are marks of the
model: a `drain` returned true during this run, and the tasks started by a
`schedule_available` that began after that. -/
structure Run where
  pc : RunPc
  tasks : ℕ
  drained : Bool
  lateStarts : ℕ
  deriving Repr, DecidableEq

namespace Run

def absent : Run := ⟨.absent, 0, false, 0⟩

/-- Between its creation and the write that ends it. -/
def alive (r : Run) : Bool := r.pc ≠ .absent && r.pc ≠ .done

/-- A `drain` returned true during this run and the run is not over. -/
def draining (r : Run) : Bool := r.alive && r.drained

end Run

structure State where
  control : FlowControl
  clock : ℕ
  /-- the supervisor's `task` -/
  slot : Option ℕ
  runs : ℕ → Run
  spawned : ℕ
  callers : ℕ → Caller

namespace State

/-- A new supervisor. -/
def init : State where
  control := ⟨.stopped, none, 0⟩
  clock := 0
  slot := none
  runs := fun _ => .absent
  spawned := 0
  callers := fun _ => .idle

def write (s : State) (state : FlowLifecycle) (error : Option String) : State :=
  { s with control := s.control.transition s.clock state error }

def setRun (s : State) (r : ℕ) (run : Run) : State :=
  { s with runs := Function.update s.runs r run }

def setCaller (s : State) (i : ℕ) (caller : Caller) : State :=
  { s with callers := Function.update s.callers i caller }

/-- The run goes on to `pc`, its other fields as they are. -/
def goto (s : State) (r : ℕ) (pc : RunPc) : State := s.setRun r { s.runs r with pc := pc }

/-- `drain` returns true now: every run that is not over has been drained. -/
def markDrained (s : State) : State :=
  { s with runs := fun k => if (s.runs k).alive then { s.runs k with drained := true } else s.runs k }

/-- A task handle is held and not finished. -/
def busy (s : State) : Bool :=
  match s.slot with
  | some r => (s.runs r).alive
  | none => false

/-- A new execution of `run_started`. -/
def spawn (s : State) : State :=
  { s with runs := Function.update s.runs s.spawned ⟨.spawned, 0, false, 0⟩
           spawned := s.spawned + 1 }

end State

/-- Steps of one caller. -/
inductive CallerStep where
  /-- the check of `pause`, `resume`, `drain`, and of the `drain` in `stop_gracefully` -/
  | pause | resume | drain | stop
  /-- the write that follows a successful check -/
  | write
  /-- the rest of `stop_gracefully` -/
  | take | joined | timeout (force : Bool) | stopped
  /-- the future of a waiting `stop_gracefully` is dropped -/
  | cancel
  deriving Repr, DecidableEq

/-- Steps of one `run_started` with the loop of `run_inner`. -/
inductive RunStep where
  | starting | initialisationFailed (error : String) | running
  | head | schedule | startTask | scheduled | join | select
  | leave (error : Option String) | conclude
  deriving Repr, DecidableEq

inductive Action where
  | tick
  | caller (i : ℕ) (a : CallerStep)
  /-- `FlowSupervisor::start` under the task lock -/
  | start
  /-- `FlowEngine::run` with the same control -/
  | run
  | engine (r : ℕ) (a : RunStep)
  deriving Repr, DecidableEq

namespace State

def callerStep (s : State) (i : ℕ) : CallerStep → Option State
  | .pause =>
    if s.callers i ≠ .idle then none
    else if s.control.state = .running then some (s.setCaller i .pausing)
    else some s
  | .resume =>
    if s.callers i ≠ .idle then none
    else if s.control.state = .paused then some (s.setCaller i .resuming)
    else some s
  | .drain =>
    if s.callers i ≠ .idle then none
    else if s.control.state.live then some (s.setCaller i (.draining false))
    else some s
  | .stop =>
    if s.callers i ≠ .idle then none
    else if s.control.state.live then some (s.setCaller i (.draining true))
    else some (s.setCaller i .taking)
  | .write =>
    match s.callers i with
    | .pausing => some ((s.write .paused none).setCaller i .idle)
    | .resuming => some ((s.write .running none).setCaller i .idle)
    | .draining stop =>
      some ((s.write .draining none).markDrained.setCaller i (if stop then .taking else .idle))
    | _ => none
  | .take =>
    match s.callers i, s.slot with
    | .taking, none => some (s.setCaller i .stopping)
    | .taking, some r => some ({ s with slot := none }.setCaller i (.waiting r))
    | _, _ => none
  | .joined =>
    match s.callers i with
    | .waiting r => if (s.runs r).alive then none else some (s.setCaller i .idle)
    | _ => none
  | .timeout force =>
    match s.callers i with
    | .waiting r =>
      if force then some ((s.goto r .done).setCaller i .stopping)
      else some ({ s with slot := some r }.setCaller i .idle)
    | _ => none
  | .stopped =>
    match s.callers i with
    | .stopping => some ((s.write .stopped none).setCaller i .idle)
    | _ => none
  | .cancel =>
    match s.callers i with
    | .waiting _ => some (s.setCaller i .idle)
    | _ => none

/-- What a run does to packets is left open: any number of tasks may start in a
`schedule_available`, and the loop may be left with or without an error. -/
def runStep (s : State) (r : ℕ) : RunStep → Option State
  | .starting =>
    match (s.runs r).pc with
    | .spawned => some ((s.write .starting none).goto r .initialising)
    | _ => none
  | .initialisationFailed error =>
    match (s.runs r).pc with
    | .initialising => some (s.goto r (.finishing (some error)))
    | _ => none
  | .running =>
    match (s.runs r).pc with
    | .initialising => some ((s.write .running none).goto r .looping)
    | _ => none
  | .head =>
    match (s.runs r).pc with
    | .looping =>
      if (s.control.state = .draining ∨ s.control.state = .stopped) ∧ (s.runs r).tasks = 0 then
        some (s.goto r (.finishing none))
      else if s.control.state = .paused ∧ (s.runs r).tasks = 0 then some s
      else some (s.goto r .entered)
    | _ => none
  | .schedule =>
    match (s.runs r).pc with
    | .entered =>
      if s.control.state = .running then some (s.goto r (.scheduling (s.runs r).drained))
      else some (s.goto r .selecting)
    | _ => none
  | .startTask =>
    match (s.runs r).pc with
    | .scheduling late =>
      some (s.setRun r { s.runs r with
        tasks := (s.runs r).tasks + 1
        lateStarts := (s.runs r).lateStarts + if late then 1 else 0 })
    | _ => none
  | .scheduled =>
    match (s.runs r).pc with
    | .scheduling _ => some (s.goto r .selecting)
    | _ => none
  | .join =>
    match (s.runs r).pc with
    | .selecting =>
      if (s.runs r).tasks = 0 then none
      else some (s.setRun r { s.runs r with pc := .looping, tasks := (s.runs r).tasks - 1 })
    | _ => none
  | .select =>
    match (s.runs r).pc with
    | .selecting => some (s.goto r .looping)
    | _ => none
  | .leave error =>
    match (s.runs r).pc with
    | .entered | .scheduling _ | .selecting => some (s.goto r (.finishing error))
    | _ => none
  | .conclude =>
    match (s.runs r).pc with
    | .finishing none => some ((s.write .stopped none).goto r .done)
    | .finishing (some error) => some ((s.write .failed (some error)).goto r .done)
    | _ => none

def step (s : State) : Action → Option State
  | .tick => some { s with clock := s.clock + 1 }
  | .caller i a => s.callerStep i a
  | .start =>
    if s.busy then some s
    else some { (s.write .starting none).spawn with slot := some s.spawned }
  | .run => some s.spawn
  | .engine r a => s.runStep r a

/-- The supervisor's control with any number of callers and engines. -/
def machine : Machine State Action := ⟨step⟩

/-! ### Drains are kept -/

/-- No drain that returned true was undone or ignored so far. -/
structure Kept (s : State) : Prop where
  held : ∀ k, (s.runs k).draining → s.control.state.live = false
  punctual : ∀ k, (s.runs k).lateStarts = 0

/-- The step is a write of `pause` or `resume` that brings a flow back. -/
def Revives (s : State) (a : Action) (t : State) : Prop :=
  (∃ i, a = .caller i .write ∧ (s.callers i = .pausing ∨ s.callers i = .resuming)) ∧
    s.control.state.live = false ∧ t.control.state.live = true

/-- The condition on a step: `pause` and `resume` still find the flow live when
they write, and the engine and the supervisor write `STARTING` and `RUNNING`
only while no drained run is left. -/
def Guarded (s : State) : Action → Prop
  | .caller i .write =>
    s.callers i = .pausing ∨ s.callers i = .resuming → s.control.state.live = true
  | .start => s.busy = false → ∀ k, (s.runs k).draining = false
  | .engine r .starting => (s.runs r).pc = .spawned → ∀ k, (s.runs k).draining = false
  | .engine r .running => (s.runs r).pc = .initialising → ∀ k, (s.runs k).draining = false
  | _ => True

/-- What carries `Kept` along a run. -/
structure Inv (s : State) : Prop extends Kept s where
  early : ∀ k late, (s.runs k).pc = .scheduling late → late = false
  unborn : ∀ k, s.spawned ≤ k → (s.runs k).alive = false

theorem init_inv : Inv init where
  held := fun _ h => by cases h
  punctual := fun _ => rfl
  early := fun _ _ h => by cases h
  unborn := fun _ _ => rfl

variable {s t : State}

theorem Inv.of_same (h : Inv s) (hc : t.control.state = s.control.state) (hr : t.runs = s.runs)
    (hn : t.spawned = s.spawned) : Inv t where
  held := fun k hk => hc ▸ h.held k (hr ▸ hk)
  punctual := fun k => hr ▸ h.punctual k
  early := fun k late hk => h.early k late (hr ▸ hk)
  unborn := fun k hk => hr ▸ h.unborn k (hn ▸ hk)

theorem Inv.write (h : Inv s) (state : FlowLifecycle) (error : Option String)
    (hl : state.live = true → ∀ k, (s.runs k).draining = false) : Inv (s.write state error) where
  held := fun k hk => by
    cases hs : state.live with
    | false => exact hs
    | true =>
      have hk' : (s.runs k).draining = true := hk
      rw [hl hs k] at hk'
      cases hk'
  punctual := h.punctual
  early := h.early
  unborn := h.unborn

theorem Inv.setRun (h : Inv s) (r : ℕ) (run : Run) (ha : run.alive → (s.runs r).alive)
    (hd : run.drained = (s.runs r).drained) (hp : run.lateStarts = 0)
    (he : ∀ late, run.pc = .scheduling late → late = false) : Inv (s.setRun r run) where
  held := fun k hk => by
    by_cases hkr : k = r
    · subst hkr
      refine h.held k ?_
      simp only [State.setRun, Function.update_self, Run.draining, Bool.and_eq_true] at hk ⊢
      exact ⟨ha hk.1, hd ▸ hk.2⟩
    · simp only [State.setRun, Function.update_of_ne hkr] at hk
      exact h.held k hk
  punctual := fun k => by
    by_cases hkr : k = r
    · subst hkr
      simpa only [State.setRun, Function.update_self] using hp
    · simpa only [State.setRun, Function.update_of_ne hkr] using h.punctual k
  early := fun k late hk => by
    by_cases hkr : k = r
    · subst hkr
      simp only [State.setRun, Function.update_self] at hk
      exact he late hk
    · simp only [State.setRun, Function.update_of_ne hkr] at hk
      exact h.early k late hk
  unborn := fun k hk => by
    have hdead := h.unborn k hk
    by_cases hkr : k = r
    · subst hkr
      simp only [State.setRun, Function.update_self]
      cases hrun : run.alive with
      | false => rfl
      | true => rw [ha hrun] at hdead; cases hdead
    · simpa only [State.setRun, Function.update_of_ne hkr] using hdead

theorem Inv.goto (h : Inv s) (r : ℕ) (pc : RunPc) (ha : (s.runs r).alive ∨ pc = .done)
    (he : ∀ late, pc = .scheduling late → late = false) : Inv (s.goto r pc) := by
  refine h.setRun r _ (fun hrun => ?_) rfl (h.punctual r) he
  rcases ha with ha | rfl
  · exact ha
  · simp [Run.alive] at hrun

theorem Inv.markDrained (h : Inv s) (hc : s.control.state.live = false) :
    Inv s.markDrained where
  held := fun _ _ => hc
  punctual := fun k => by
    simp only [State.markDrained]
    split <;> exact h.punctual k
  early := fun k late hk => by
    simp only [State.markDrained] at hk
    split at hk <;> exact h.early k late hk
  unborn := fun k hk => by
    simp only [State.markDrained]
    have hdead : (s.runs k).alive = false := h.unborn k hk
    simp only [hdead, Bool.false_eq_true, if_false]

theorem Inv.spawn (h : Inv s) : Inv s.spawn where
  held := fun k hk => by
    by_cases hks : k = s.spawned
    · subst hks
      simp [State.spawn, Run.draining] at hk
    · simp only [State.spawn, Function.update_of_ne hks] at hk
      exact h.held k hk
  punctual := fun k => by
    by_cases hks : k = s.spawned
    · subst hks
      simp [State.spawn]
    · simpa only [State.spawn, Function.update_of_ne hks] using h.punctual k
  early := fun k late hk => by
    by_cases hks : k = s.spawned
    · subst hks
      simp [State.spawn] at hk
    · simp only [State.spawn, Function.update_of_ne hks] at hk
      exact h.early k late hk
  unborn := fun k hk => by
    have hlt : s.spawned < k := hk
    have hks : k ≠ s.spawned := by omega
    simpa only [State.spawn, Function.update_of_ne hks] using h.unborn k (by omega)

theorem alive_of_pc {r : ℕ} {pc : RunPc} (h : (s.runs r).pc = pc) (ha : pc ≠ .absent)
    (hd : pc ≠ .done) : (s.runs r).alive = true := by
  simp [Run.alive, h, ha, hd]

theorem callerStep_inv {i : ℕ} {a : CallerStep} (h : Inv s) (hg : Guarded s (.caller i a))
    (hs : s.callerStep i a = some t) : Inv t := by
  cases a with
  | pause | resume | drain | stop =>
    simp only [callerStep] at hs
    split_ifs at hs <;> cases hs <;> first | exact h | exact h.of_same rfl rfl rfl
  | write =>
    simp only [callerStep] at hs
    split at hs
    next hc =>
      cases hs
      -- a live cell has no drained run, so writing a live state breaks nothing
      have hnone : ∀ k, (s.runs k).draining = false := fun k =>
        Bool.eq_false_iff.mpr fun hk => by
          have hlive := hg (.inl hc)
          rw [h.held k hk] at hlive
          cases hlive
      exact (h.write .paused none fun _ => hnone).of_same rfl rfl rfl
    next hc =>
      cases hs
      have hnone : ∀ k, (s.runs k).draining = false := fun k =>
        Bool.eq_false_iff.mpr fun hk => by
          have hlive := hg (.inr hc)
          rw [h.held k hk] at hlive
          cases hlive
      exact (h.write .running none fun _ => hnone).of_same rfl rfl rfl
    next =>
      cases hs
      exact ((h.write .draining none (by simp [FlowLifecycle.live])).markDrained rfl).of_same
        rfl rfl rfl
    next => cases hs
  | take =>
    simp only [callerStep] at hs
    split at hs <;> cases hs <;> exact h.of_same rfl rfl rfl
  | joined =>
    simp only [callerStep] at hs
    split at hs
    · split_ifs at hs
      cases hs
      exact h.of_same rfl rfl rfl
    · cases hs
  | timeout force =>
    simp only [callerStep] at hs
    split at hs
    next r _ =>
      split_ifs at hs <;> cases hs
      · exact (h.goto r .done (.inr rfl) (by simp)).of_same rfl rfl rfl
      · exact h.of_same rfl rfl rfl
    next => cases hs
  | stopped =>
    simp only [callerStep] at hs
    split at hs <;> cases hs
    exact (h.write .stopped none (by simp [FlowLifecycle.live])).of_same rfl rfl rfl
  | cancel =>
    simp only [callerStep] at hs
    split at hs <;> cases hs
    exact h.of_same rfl rfl rfl

theorem runStep_inv {r : ℕ} {a : RunStep} (h : Inv s) (hg : Guarded s (.engine r a))
    (hs : s.runStep r a = some t) : Inv t := by
  cases a with
  | starting =>
    simp only [runStep] at hs
    split at hs <;> cases hs
    next hpc =>
      exact (h.write .starting none fun _ => hg hpc).goto r _
        (.inl (alive_of_pc hpc (by simp) (by simp))) (by simp)
  | running =>
    simp only [runStep] at hs
    split at hs <;> cases hs
    next hpc =>
      exact (h.write .running none fun _ => hg hpc).goto r _
        (.inl (alive_of_pc hpc (by simp) (by simp))) (by simp)
  | initialisationFailed error =>
    simp only [runStep] at hs
    split at hs <;> cases hs
    next hpc => exact h.goto r _ (.inl (alive_of_pc hpc (by simp) (by simp))) (by simp)
  | head =>
    simp only [runStep] at hs
    split at hs
    next hpc =>
      have ha := alive_of_pc hpc (by simp) (by simp)
      split_ifs at hs <;> cases hs
      · exact h.goto r _ (.inl ha) (by simp)
      · exact h
      · exact h.goto r _ (.inl ha) (by simp)
    next => cases hs
  | schedule =>
    simp only [runStep] at hs
    split at hs
    next hpc =>
      have ha := alive_of_pc hpc (by simp) (by simp)
      split_ifs at hs with hrun <;> cases hs
      · -- the call starts tasks only in `RUNNING`, where no run is drained
        refine h.goto r _ (.inl ha) fun late he => ?_
        cases he
        refine Bool.eq_false_iff.mpr fun hd => ?_
        have hlive := h.held r (by simp [Run.draining, ha, hd])
        rw [hrun] at hlive
        cases hlive
      · exact h.goto r _ (.inl ha) (by simp)
    next => cases hs
  | startTask =>
    simp only [runStep] at hs
    split at hs <;> cases hs
    next late hpc =>
      have hl : late = false := h.early r late hpc
      refine h.setRun r _ id rfl ?_ (h.early r)
      simp [hl, h.punctual r]
  | join =>
    simp only [runStep] at hs
    split at hs
    next hpc =>
      split_ifs at hs
      cases hs
      exact h.setRun r _ (fun _ => alive_of_pc hpc (by simp) (by simp)) rfl (h.punctual r)
        (by simp)
    next => cases hs
  | scheduled | select =>
    simp only [runStep] at hs
    split at hs <;> cases hs
    next hpc => exact h.goto r _ (.inl (alive_of_pc hpc (by simp) (by simp))) (by simp)
  | leave error =>
    simp only [runStep] at hs
    split at hs <;> cases hs
    all_goals
      next hpc => exact h.goto r _ (.inl (alive_of_pc hpc (by simp) (by simp))) (by simp)
  | conclude =>
    simp only [runStep] at hs
    split at hs <;> cases hs
    all_goals exact (h.write _ _ (by simp [FlowLifecycle.live])).goto r _ (.inr rfl) (by simp)

/-- A step that meets the condition keeps the invariant. -/
theorem step_inv {a : Action} (h : Inv s) (hg : Guarded s a) (hs : s.step a = some t) :
    Inv t := by
  cases a with
  | tick =>
    cases Option.some.inj hs
    exact h.of_same rfl rfl rfl
  | caller i a => exact callerStep_inv h hg hs
  | start =>
    simp only [step] at hs
    split_ifs at hs with hb <;> cases hs
    · exact h
    · exact ((h.write .starting none fun _ => hg (by simpa using hb)).spawn).of_same rfl rfl rfl
  | run =>
    cases Option.some.inj hs
    exact h.spawn
  | engine r a => exact runStep_inv h hg hs

/-- A live write by the engine or the supervisor shows that no run is drained. -/
theorem no_draining_of_write {r : ℕ} {pc : RunPc} (hk : Kept (s.goto r pc))
    (hl : s.control.state.live = true) (ha : (s.runs r).alive)
    (hpc : pc ≠ .absent ∧ pc ≠ .done) (k : ℕ) : (s.runs k).draining = false := by
  refine Bool.eq_false_iff.mpr fun hd => ?_
  have hdead := hk.held k (by
    by_cases hkr : k = r
    · subst hkr
      simp only [Run.draining, Bool.and_eq_true] at hd
      simp [State.goto, State.setRun, Run.draining, Run.alive, hpc.1, hpc.2, hd.2]
    · simpa only [State.goto, State.setRun, Function.update_of_ne hkr] using hd)
  have hlive : (s.goto r pc).control.state.live = true := hl
  rw [hlive] at hdead
  cases hdead

/-- A step that does not meet the condition loses a drain at once. -/
theorem guarded_of_kept {a : Action} (h : Inv s) (hs : s.step a = some t) (hk : Kept t)
    (hr : ¬ Revives s a t) : Guarded s a := by
  cases a with
  | tick => trivial
  | run => trivial
  | caller i a =>
    cases a with
    | write =>
      intro hc
      refine Bool.of_not_eq_false fun hdead => hr ⟨⟨i, rfl, hc⟩, hdead, ?_⟩
      rcases hc with hc | hc <;> simp only [step, callerStep, hc] at hs <;> cases hs <;> rfl
    | _ => trivial
  | start =>
    intro hb k
    simp only [step, hb, Bool.false_eq_true, if_false] at hs
    cases hs
    refine Bool.eq_false_iff.mpr fun hd => ?_
    have hks : k ≠ s.spawned := by
      rintro rfl
      simp [Run.draining, h.unborn s.spawned (Nat.le_refl _)] at hd
    have hdead := hk.held k (by
      simpa only [State.spawn, State.write, Function.update_of_ne hks] using hd)
    cases hdead
  | engine r a =>
    cases a with
    | starting =>
      intro hpc k
      simp only [step, runStep, hpc] at hs
      cases hs
      exact no_draining_of_write (s := s.write .starting none) hk rfl
        (alive_of_pc (s := s) hpc (by simp) (by simp)) (by simp) k
    | running =>
      intro hpc k
      simp only [step, runStep, hpc] at hs
      cases hs
      exact no_draining_of_write (s := s.write .running none) hk rfl
        (alive_of_pc (s := s) hpc (by simp) (by simp)) (by simp) k
    | _ => trivial

end State

/-- In every run whose steps meet `Guarded`, no drain that returned true is
lost; and the condition is exact, since a step loses a drain or revives a flow
if and only if it does not meet it. -/
theorem drain_kept {s : State} (h : State.machine.Reach State.Guarded .init s) :
    s.Kept ∧ ∀ a t, s.step a = some t → (s.Guarded a ↔ t.Kept ∧ ¬ s.Revives a t) := by
  have hinv : s.Inv := h.invariant State.init_inv fun _ _ _ hi hg hs => State.step_inv hi hg hs
  refine ⟨hinv.toKept, fun a t hs => ⟨fun hg => ⟨(State.step_inv hinv hg hs).toKept, ?_⟩,
    fun hk => State.guarded_of_kept hinv hs hk.1 hk.2⟩⟩
  rintro ⟨⟨i, rfl, hc⟩, hdead, _⟩
  have hlive : s.control.state.live = true := hg hc
  rw [hdead] at hlive
  cases hlive

/-- A flow that is drained while it runs: the drain is kept, and the next
scheduling of the run starts nothing. -/
theorem drain_kept_while_running :
    ∃ s, State.machine.exec .init [.start, .engine 0 .starting, .engine 0 .running,
        .engine 0 .head, .caller 0 .drain, .caller 0 .write, .engine 0 .schedule] = some s ∧
      s.Kept ∧ (s.runs 0).draining ∧ s.control.state = .draining ∧ (s.runs 0).pc = .selecting := by
  refine ⟨_, rfl, (drain_kept ?_).1, by decide, by decide, by decide⟩
  refine .step (a := .engine 0 .schedule) (.step (a := .caller 0 .write)
    (.step (a := .caller 0 .drain) (.step (a := .engine 0 .head)
      (.step (a := .engine 0 .running) (.step (a := .engine 0 .starting)
        (.step (a := .start) .refl ?_ rfl) ?_ rfl) ?_ rfl) trivial rfl) trivial rfl) ?_ rfl)
    trivial rfl
  · exact fun _ _ => rfl
  · exact fun _ k => by cases k <;> rfl
  · exact fun _ k => by cases k <;> rfl
  · exact fun _ => rfl

/-- A drain that returns true while the flow is `STARTING` is lost: the engine's
`control.running()` overwrites it and the loop goes on to start tasks. -/
theorem drain_lost_while_starting :
    ∃ s, State.machine.exec .init [.start, .engine 0 .starting, .caller 0 .drain,
        .caller 0 .write, .engine 0 .running, .engine 0 .head, .engine 0 .schedule,
        .engine 0 .startTask] = some s ∧
      ¬ s.Kept ∧ (s.runs 0).draining ∧ s.control.state = .running ∧ (s.runs 0).lateStarts = 1 :=
  ⟨_, rfl, fun h => absurd (h.held 0 (by decide)) (by decide), by decide, by decide, by decide⟩

end Jaiba.Control
