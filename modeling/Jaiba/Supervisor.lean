import Jaiba.Control
import Jaiba.Error

/-!
# Flow supervisor (`engine/supervisor.rs`)

The task slot of a supervisor under concurrent calls of `start` and
`stop_gracefully`. A call is at one of its awaits; between two of them it is one
step, and at each of them it may be cancelled.
-/

namespace Jaiba.Supervisor
open Jaiba.Lib Jaiba.Control

/-- A spawned execution of `run_started`: whether the sender that it was given
has sent or was dropped, whether `abort` was called, and what joining it gives. -/
structure Engine where
  started : Option Bool
  aborted : Bool
  result : Option (Except FlowError Unit)

def Engine.alive (e : Engine) : Bool := e.result.isNone

inductive Reply where
  | started (fresh : Bool)
  | stopped
  deriving Repr, DecidableEq

/-- The await at which a call is; the number is that of the engine whose handle or
signal it awaits. -/
inductive Stage where
  -- `start`
  | start
  | joining (n : ℕ)
  | ready (n : ℕ)
  | reclaim (n : ℕ)
  | collect (n : ℕ)
  -- `stop_gracefully`
  | stop
  | taking
  | waiting (n : ℕ)
  | aborting (n : ℕ)
  | putBack (n : ℕ)
  | done (reply : Except FlowError Reply)
  | cancelled

/-- The handle that a call has taken out of the slot. -/
def Stage.holds : Stage → Option ℕ
  | .collect n | .waiting n | .aborting n | .putBack n => some n
  | _ => none

/-- `lock` is the call that keeps the slot locked across an await. -/
structure FlowSupervisor where
  forceAfterTimeout : Bool
  control : FlowLifecycle
  slot : Option ℕ
  lock : Option ℕ
  engines : List Engine
  calls : List Stage

/-- What a step is given: an error of `FlowEngine::new`, and whether the drain
timeout has passed. -/
structure Input where
  fault : Option FlowError
  timeout : Bool

inductive Request where
  | start
  | stopGracefully
  deriving Repr, DecidableEq

inductive Action where
  | call (request : Request)
  | advance (i : ℕ) (input : Input)
  | cancel (i : ℕ)
  /-- the engine has initialised -/
  | signal (n : ℕ)
  /-- the engine drops its sender -/
  | fail (n : ℕ)
  | exit (n : ℕ) (result : Except FlowError Unit)
  /-- an abort takes effect, or the task panics -/
  | die (n : ℕ) (text : String)

namespace FlowSupervisor

def create (forceAfterTimeout : Bool) : FlowSupervisor where
  forceAfterTimeout := forceAfterTimeout
  control := .stopped
  slot := none
  lock := none
  engines := []
  calls := []

variable (s : FlowSupervisor) (i : ℕ)

def alive (n : ℕ) : Bool := (s.engines[n]?).any Engine.alive

def aborted (n : ℕ) : Bool := (s.engines[n]?).any Engine.aborted

def result (n : ℕ) : Option (Except FlowError Unit) := (s.engines[n]?).bind Engine.result

def goto (stage : Stage) : FlowSupervisor := { s with calls := s.calls.set i stage }

def finish (reply : Except FlowError Reply) : FlowSupervisor := s.goto i (.done reply)

def setEngine (n : ℕ) (f : Engine → Engine) : FlowSupervisor :=
  { s with engines := s.engines.modify n f }

/-- The locked section of `start` once the slot is free. -/
def launch (input : Input) : FlowSupervisor :=
  match input.fault with
  | some e => { s.finish i (.error e) with lock := none }
  | none =>
    { s.goto i (.ready s.engines.length) with
      control := .starting
      slot := some s.engines.length
      lock := none
      engines := s.engines ++ [⟨none, false, none⟩] }

def advance (input : Input) : Stage → Option FlowSupervisor
  | .start =>
    if s.lock.isSome then none
    else
      match s.slot with
      | some n =>
        if s.alive n then some (s.finish i (.ok (.started false)))
        else some { s.goto i (.joining n) with slot := none, lock := some i }
      | none => some (s.launch i input)
  | .joining _ => some (s.launch i input)
  | .ready n =>
    match (s.engines[n]?).bind Engine.started with
    | none => none
    | some true => some (s.finish i (.ok (.started true)))
    | some false => some (s.goto i (.reclaim n))
  | .reclaim n =>
    if s.lock.isSome then none
    else if s.slot = some n then some { s.goto i (.collect n) with slot := none }
    else some (s.finish i (.error (.server "flow stopped before initialization completed")))
  | .collect n =>
    match s.result n with
    | none => none
    | some (.error e) => some (s.finish i (.error e))
    | some (.ok ()) =>
      some (s.finish i (.error (.server "flow terminated before initialization completed")))
  | .stop =>
    some { s.goto i .taking with control := if s.control.live then .draining else s.control }
  | .taking =>
    if s.lock.isSome then none
    else
      match s.slot with
      | none => some { s.finish i (.ok .stopped) with control := .stopped }
      | some n => some { s.goto i (.waiting n) with slot := none }
  | .waiting n =>
    match s.result n with
    | some (.ok ()) => some (s.finish i (.ok .stopped))
    | some (.error e) => some (s.finish i (.error e))
    | none =>
      if !input.timeout then none
      else if s.forceAfterTimeout then
        some ((s.setEngine n fun e => { e with aborted := true }).goto i (.aborting n))
      else some (s.goto i (.putBack n))
  | .aborting n =>
    match s.result n with
    | none => none
    | some _ => some { s.finish i (.ok .stopped) with control := .stopped }
  | .putBack n =>
    if s.lock.isSome then none
    else
      some { s.finish i (.error (.server
        "flow drain timed out and force_after_timeout is false")) with slot := some n }
  | .done _ | .cancelled => none

/-- The future of a call is dropped, with what it holds. -/
def drop : Stage → Option FlowSupervisor
  | .done _ | .cancelled => none
  | _ => some { s.goto i .cancelled with lock := if s.lock = some i then none else s.lock }

end FlowSupervisor

def step (s : FlowSupervisor) : Action → Option FlowSupervisor
  | .call .start => some { s with calls := s.calls ++ [.start] }
  | .call .stopGracefully => some { s with calls := s.calls ++ [.stop] }
  | .advance i input => (s.calls[i]?).bind (s.advance i input)
  | .cancel i => (s.calls[i]?).bind (s.drop i)
  | .signal n =>
    if s.alive n && ((s.engines[n]?).bind Engine.started).isNone then
      some { s.setEngine n fun e => { e with started := some true } with control := .running }
    else none
  | .fail n =>
    if s.alive n && ((s.engines[n]?).bind Engine.started).isNone then
      some (s.setEngine n fun e => { e with started := some false })
    else none
  | .exit n result =>
    if s.alive n then
      some { s.setEngine n fun e =>
          { e with started := e.started.or (some false), result := some result } with
        control := match result with
          | .ok () => .stopped
          | .error _ => .failed }
    else none
  | .die n text =>
    if s.alive n then
      some (s.setEngine n fun e =>
        { e with started := e.started.or (some false), result := some (.error (.server text)) })
    else none

/-- A supervisor under any number of concurrent calls. -/
def supervisor : Machine FlowSupervisor Action := ⟨step⟩

/-- The condition on a step: an engine is started while no call has the handle of
a live one and no aborted one is still there; a handle is not put back over that
of a live engine; and no call is cancelled with the handle of a live engine that
is not aborted. -/
def HandlesSound (s : FlowSupervisor) : Action → Prop
  | .advance i input =>
    match s.calls[i]?, input.fault with
    | some .start, none | some (.joining _), none => s.slot = none →
        (∀ stage ∈ s.calls, ∀ n, stage.holds = some n → s.alive n = false) ∧
          ∀ n, s.aborted n = true → s.alive n = false
    | some (.putBack _), _ => ∀ m, s.slot = some m → s.alive m = false
    | _, _ => True
  | .cancel i => ∀ stage, s.calls[i]? = some stage → ∀ n, stage.holds = some n →
      s.alive n = true → s.aborted n = true
  | _ => True

/-! ### One engine, one handle -/

/-- The property: one engine is alive at most, and the handle of one that is not
aborted is in the slot or in the hands of a call. -/
structure Sole (s : FlowSupervisor) : Prop where
  one : ∀ n m, s.alive n = true → s.alive m = true → n = m
  held : ∀ n, s.alive n = true → s.aborted n = false →
    s.slot = some n ∨ ∃ stage ∈ s.calls, stage.holds = some n

/-- With it, the slot is empty while a call keeps it locked. -/
structure Inv (s : FlowSupervisor) : Prop extends Sole s where
  joining : ∀ (i n : ℕ), s.calls[i]? = some (.joining n) → s.lock = some i ∧ s.slot = none

section steps
variable {s t : FlowSupervisor} {i n : ℕ} {input : Input} {old stage : Stage}

theorem set_cases {j : ℕ} {b : Stage} (hcalls : t.calls = s.calls.set i stage)
    (hb : t.calls[j]? = some b) : j = i ∧ b = stage ∨ j ≠ i ∧ s.calls[j]? = some b := by
  rw [hcalls, List.getElem?_set] at hb
  split_ifs at hb with hij hlt
  · exact .inl ⟨hij.symm, (Option.some.inj hb).symm⟩
  · exact .inr ⟨fun h => hij h.symm, hb⟩

/-- A call moves on and the engines stay. -/
theorem Inv.move (h : Inv s) (hc : s.calls[i]? = some old) (hengines : t.engines = s.engines)
    (hcalls : t.calls = s.calls.set i stage)
    (hkeep : ∀ n, s.alive n = true → s.aborted n = false →
      s.slot = some n ∨ old.holds = some n → t.slot = some n ∨ stage.holds = some n)
    (hself : ∀ n, stage = .joining n → t.lock = some i ∧ t.slot = none)
    (hothers : ∀ j n, j ≠ i → s.calls[j]? = some (.joining n) →
      t.lock = some j ∧ t.slot = none) : Inv t := by
  have halive : ∀ n, t.alive n = s.alive n := fun n => by
    simp only [FlowSupervisor.alive, hengines]
  have haborted : ∀ n, t.aborted n = s.aborted n := fun n => by
    simp only [FlowSupervisor.aborted, hengines]
  have hlt := (List.getElem?_eq_some_iff.mp hc).1
  have hnew : stage ∈ t.calls := by
    rw [hcalls]
    exact List.mem_set hlt stage
  refine ⟨⟨fun n m hn hm => h.one n m (halive n ▸ hn) (halive m ▸ hm), fun n hn ha => ?_⟩,
    fun j n hj => ?_⟩
  · rw [halive] at hn
    rw [haborted] at ha
    have hback : s.slot = some n ∨ old.holds = some n →
        t.slot = some n ∨ ∃ b ∈ t.calls, b.holds = some n := fun hold =>
      (hkeep n hn ha hold).imp_right fun hstage => ⟨stage, hnew, hstage⟩
    rcases h.held n hn ha with hslot | ⟨b, hb, hholds⟩
    · exact hback (.inl hslot)
    · obtain ⟨j, hj⟩ := List.mem_iff_getElem?.mp hb
      by_cases hji : j = i
      · rw [hji, hc] at hj
        cases hj
        exact hback (.inr hholds)
      · refine .inr ⟨b, List.mem_of_getElem? (i := j) ?_, hholds⟩
        rw [hcalls, List.getElem?_set_ne (Ne.symm hji), hj]
  · rcases set_cases hcalls hj with ⟨rfl, hstage⟩ | ⟨hji, hj⟩
    · exact hself n hstage.symm
    · exact hothers j n hji hj

/-- A call moves on that leaves the slot alone and keeps what it holds, or lets go
of the handle of an engine that is gone. -/
theorem Inv.pass (h : Inv s) (hc : s.calls[i]? = some old) (hengines : t.engines = s.engines)
    (hcalls : t.calls = s.calls.set i stage) (hslot : t.slot = s.slot) (hlock : t.lock = s.lock)
    (hnot : ∀ n, stage ≠ .joining n)
    (hkeep : ∀ n, s.alive n = true → s.aborted n = false → old.holds = some n →
      stage.holds = some n) : Inv t := by
  refine h.move hc hengines hcalls (fun n hn ha hold => ?_) (fun n hstage => absurd hstage (hnot n))
    (fun j n _ hj => ?_)
  · rw [hslot]
    exact hold.imp_right (hkeep n hn ha)
  · rw [hslot, hlock]
    exact h.joining j n hj

/-- A call moves on while the slot is not locked. -/
theorem Inv.locked (h : Inv s) (hc : s.calls[i]? = some old) (hfree : s.lock.isSome ≠ true)
    (hengines : t.engines = s.engines) (hcalls : t.calls = s.calls.set i stage)
    (hkeep : ∀ n, s.alive n = true → s.aborted n = false →
      s.slot = some n ∨ old.holds = some n → t.slot = some n ∨ stage.holds = some n)
    (hself : ∀ n, stage = .joining n → t.lock = some i ∧ t.slot = none) : Inv t := by
  refine h.move hc hengines hcalls hkeep hself fun j n _ hj => ?_
  rw [(h.joining j n hj).1] at hfree
  exact absurd rfl hfree

/-- Engines end or are aborted. -/
theorem Inv.engines (h : Inv s) (hcalls : t.calls = s.calls) (hslot : t.slot = s.slot)
    (hlock : t.lock = s.lock) (halive : ∀ n, t.alive n = true → s.alive n = true)
    (haborted : ∀ n, t.aborted n = false → s.aborted n = false) : Inv t := by
  refine ⟨⟨fun n m hn hm => h.one n m (halive n hn) (halive m hm), fun n hn ha => ?_⟩,
    fun j n hj => ?_⟩
  · rw [hslot, hcalls]
    exact h.held n (halive n hn) (haborted n ha)
  · rw [hcalls] at hj
    rw [hslot, hlock]
    exact h.joining j n hj

theorem getElem?_setEngine (s : FlowSupervisor) (n : ℕ) (f : Engine → Engine) (m : ℕ) :
    (s.setEngine n f).engines[m]? = (s.engines[m]?).map fun e => if n = m then f e else e := by
  rw [FlowSupervisor.setEngine, List.getElem?_modify]
  rfl

/-- A write to an engine that neither revives it nor takes an abort back. -/
theorem Inv.setEngine (h : Inv s) (f : Engine → Engine)
    (halive : ∀ e, (f e).alive = true → e.alive = true)
    (haborted : ∀ e, (f e).aborted = false → e.aborted = false) : Inv (s.setEngine n f) := by
  refine h.engines rfl rfl rfl (fun m hm => ?_) (fun m hm => ?_)
  · rw [FlowSupervisor.alive, getElem?_setEngine, Option.any_map] at hm
    rw [FlowSupervisor.alive]
    cases he : s.engines[m]? with
    | none =>
      rw [he] at hm
      cases hm
    | some e =>
      rw [he, Option.any_some] at hm
      rw [Option.any_some]
      split_ifs at hm
      · exact halive e hm
      · exact hm
  · rw [FlowSupervisor.aborted, getElem?_setEngine, Option.any_map] at hm
    rw [FlowSupervisor.aborted]
    cases he : s.engines[m]? with
    | none => rfl
    | some e =>
      rw [he, Option.any_some] at hm
      rw [Option.any_some]
      split_ifs at hm
      · exact haborted e hm
      · exact hm

/-- Joining gives a result once the engine is not alive. -/
theorem not_alive_of_result {r : Except FlowError Unit} (h : s.result n = some r) :
    s.alive n = false := by
  obtain ⟨e, he, hr⟩ := Option.bind_eq_some_iff.mp h
  rw [FlowSupervisor.alive, he, Option.any_some, Engine.alive, hr]
  rfl

/-- The locked section of `start`, with an empty slot. -/
theorem Inv.launch (h : Inv s) (hc : s.calls[i]? = some old) (hslot : s.slot = none)
    (hholds : old.holds = none)
    (hlock : ∀ j n, j ≠ i → s.calls[j]? ≠ some (.joining n))
    (hok : input.fault = none →
      (∀ stage ∈ s.calls, ∀ n, stage.holds = some n → s.alive n = false) ∧
        ∀ n, s.aborted n = true → s.alive n = false) : Inv (s.launch i input) := by
  unfold FlowSupervisor.launch
  split
  next e he =>
    refine h.move hc rfl rfl (fun n _ _ hold => ?_) (fun n hstage => (by cases hstage))
      (fun j n hj hjoin => absurd hjoin (hlock j n hj))
    rcases hold with hold | hold
    · rw [hslot] at hold
      cases hold
    · rw [hholds] at hold
      cases hold
  next he =>
    obtain ⟨hheld, haborted⟩ := hok he
    -- no old engine is alive
    have hnone : ∀ n, s.alive n = false := by
      intro n
      rw [← Bool.not_eq_true]
      intro hn
      cases ha : s.aborted n with
      | true =>
        rw [haborted n ha] at hn
        cases hn
      | false =>
        rcases h.held n hn ha with hs | ⟨b, hb, hholds⟩
        · rw [hslot] at hs
          cases hs
        · rw [hheld b hb n hholds] at hn
          cases hn
    generalize ht : ({ s.goto i (.ready s.engines.length) with
      control := .starting
      slot := some s.engines.length
      lock := none
      engines := s.engines ++ [⟨none, false, none⟩] } : FlowSupervisor) = t
    have hlast : ∀ n, t.alive n = true → n = s.engines.length := by
      intro n hn
      rw [← ht, FlowSupervisor.alive, List.getElem?_append] at hn
      split_ifs at hn with hlt
      · exact absurd (hnone n ▸ hn) Bool.false_ne_true
      · by_contra hne
        have hout : ([⟨none, false, none⟩] : List Engine)[n - s.engines.length]? = none := by
          refine List.getElem?_eq_none ?_
          rw [List.length_singleton]
          omega
        rw [hout] at hn
        cases hn
    refine ⟨⟨fun n m hn hm => (hlast n hn).trans (hlast m hm).symm, fun n hn _ => .inl ?_⟩,
      fun j n hj => ?_⟩
    · rw [hlast n hn, ← ht]
    · rw [← ht] at hj
      rcases set_cases (s := s) (t := s.goto i (.ready s.engines.length)) rfl hj with
        ⟨_, hstage⟩ | ⟨hji, hj⟩
      · cases hstage
      · exact absurd hj (hlock j n hji)

theorem Inv.advance (h : Inv s) (hc : s.calls[i]? = some old)
    (hok : HandlesSound s (.advance i input)) (hs : s.advance i input old = some t) : Inv t := by
  have hdead : ∀ {m : ℕ} {r : Except FlowError Unit} {n : ℕ}, s.result m = some r →
      s.alive n = true → old.holds = some n → old.holds = some m → False := by
    intro m r n hr hn hholds hm
    rw [hm, Option.some.injEq] at hholds
    rw [← hholds, not_alive_of_result hr] at hn
    cases hn
  cases old with
  | start =>
    simp only [FlowSupervisor.advance] at hs
    split_ifs at hs with hfree
    split at hs
    next n hslot =>
      split_ifs at hs with halive <;> cases hs
      · exact h.pass hc rfl rfl rfl rfl (fun n hn => (by cases hn)) fun n _ _ hn => (by cases hn)
      · refine h.locked hc hfree rfl rfl (fun m hm _ hold => ?_) fun m hm => ⟨rfl, rfl⟩
        rcases hold with hold | hold
        · rw [hslot, Option.some.injEq] at hold
          rw [hold] at halive
          exact absurd hm halive
        · cases hold
    next hslot =>
      cases hs
      refine h.launch hc hslot rfl (fun j n _ hj => ?_) fun hfault => ?_
      · rw [(h.joining j n hj).1] at hfree
        exact hfree rfl
      · unfold HandlesSound at hok
        simp only [hc, hfault] at hok
        exact hok hslot
  | joining n =>
    cases hs
    obtain ⟨hlock, hslot⟩ := h.joining i n hc
    refine h.launch hc hslot rfl (fun j m hji hj => ?_) fun hfault => ?_
    · have hlj := (h.joining j m hj).1
      rw [hlock] at hlj
      exact hji (Option.some.inj hlj).symm
    · unfold HandlesSound at hok
      simp only [hc, hfault] at hok
      exact hok hslot
  | ready n =>
    simp only [FlowSupervisor.advance] at hs
    split at hs <;> cases hs
    · exact h.pass hc rfl rfl rfl rfl (fun n hn => (by cases hn)) fun n _ _ hn => (by cases hn)
    · exact h.pass hc rfl rfl rfl rfl (fun n hn => (by cases hn)) fun n _ _ hn => (by cases hn)
  | reclaim n =>
    simp only [FlowSupervisor.advance] at hs
    split_ifs at hs with hfree hslot <;> cases hs
    · refine h.locked hc hfree rfl rfl (fun m _ _ hold => ?_) fun m hm => (by cases hm)
      rcases hold with hold | hold
      · exact .inr (hslot.symm.trans hold)
      · cases hold
    · exact h.pass hc rfl rfl rfl rfl (fun n hn => (by cases hn)) fun n _ _ hn => (by cases hn)
  | collect n =>
    simp only [FlowSupervisor.advance] at hs
    split at hs
    next => cases hs
    next e hr =>
      cases hs
      exact h.pass hc rfl rfl rfl rfl (fun n hn => (by cases hn)) fun m hm _ hholds =>
        (hdead hr hm hholds rfl).elim
    next hr =>
      cases hs
      exact h.pass hc rfl rfl rfl rfl (fun n hn => (by cases hn)) fun m hm _ hholds =>
        (hdead hr hm hholds rfl).elim
  | stop =>
    cases hs
    exact h.pass hc rfl rfl rfl rfl (fun n hn => (by cases hn)) fun n _ _ hn => (by cases hn)
  | taking =>
    simp only [FlowSupervisor.advance] at hs
    split_ifs at hs with hfree
    split at hs
    next hslot =>
      cases hs
      exact h.pass hc rfl rfl rfl rfl (fun n hn => (by cases hn)) fun n _ _ hn => (by cases hn)
    next n hslot =>
      cases hs
      refine h.locked hc hfree rfl rfl (fun m _ _ hold => ?_) fun m hm => (by cases hm)
      rcases hold with hold | hold
      · exact .inr (hslot.symm.trans hold)
      · cases hold
  | waiting n =>
    simp only [FlowSupervisor.advance] at hs
    split at hs
    next hr =>
      cases hs
      exact h.pass hc rfl rfl rfl rfl (fun n hn => (by cases hn)) fun m hm _ hholds =>
        (hdead hr hm hholds rfl).elim
    next e hr =>
      cases hs
      exact h.pass hc rfl rfl rfl rfl (fun n hn => (by cases hn)) fun m hm _ hholds =>
        (hdead hr hm hholds rfl).elim
    next hr =>
      split_ifs at hs with htimeout hforce <;> cases hs
      · have habort : Inv (s.setEngine n fun e => { e with aborted := true }) :=
          h.setEngine _ (fun _ he => he) fun _ he => (by cases he)
        exact habort.pass hc rfl rfl rfl rfl (fun n hn => (by cases hn)) fun m _ _ hholds => hholds
      · exact h.pass hc rfl rfl rfl rfl (fun n hn => (by cases hn)) fun m _ _ hholds => hholds
  | aborting n =>
    simp only [FlowSupervisor.advance] at hs
    split at hs
    next => cases hs
    next r hr =>
      cases hs
      exact h.pass hc rfl rfl rfl rfl (fun n hn => (by cases hn)) fun m hm _ hholds =>
        (hdead hr hm hholds rfl).elim
  | putBack n =>
    simp only [FlowSupervisor.advance] at hs
    split_ifs at hs with hfree
    cases hs
    unfold HandlesSound at hok
    simp only [hc] at hok
    refine h.locked hc hfree rfl rfl (fun m hm _ hold => ?_) fun m hm => (by cases hm)
    rcases hold with hold | hold
    · rw [hok m hold] at hm
      cases hm
    · exact .inl hold
  | done => cases hs
  | cancelled => cases hs

theorem Inv.cancel (h : Inv s) (hc : s.calls[i]? = some old)
    (hok : HandlesSound s (.cancel i)) (hs : s.drop i old = some t) : Inv t := by
  have hcond := hok old hc
  have hgone : ∀ n, s.alive n = true → s.aborted n = false → old.holds ≠ some n := by
    intro n hn ha hholds
    rw [hcond n hholds hn] at ha
    cases ha
  have hcancelled : Inv { s.goto i .cancelled with
      lock := if s.lock = some i then none else s.lock } := by
    refine h.move hc rfl rfl (fun n hn ha hold => ?_) (fun n hn => (by cases hn)) fun j n hji hj => ?_
    · rcases hold with hold | hold
      · exact .inl hold
      · exact absurd hold (hgone n hn ha)
    · obtain ⟨hlock, hslot⟩ := h.joining j n hj
      refine ⟨?_, hslot⟩
      rw [hlock]
      exact if_neg fun heq => hji (Option.some.inj heq)
  cases old with
  | done => cases hs
  | cancelled => cases hs
  | _ =>
    cases hs
    exact hcancelled

theorem step_inv {a : Action} (h : Inv s) (hok : HandlesSound s a) (hs : step s a = some t) :
    Inv t := by
  have hjoin : ∀ stage : Stage, stage.holds = none → (∀ n, stage ≠ .joining n) →
      Inv { s with calls := s.calls ++ [stage] } := by
    intro stage hholds hnot
    refine ⟨⟨h.one, fun n hn ha => ?_⟩, fun j n hj => ?_⟩
    · refine (h.held n hn ha).imp_right ?_
      rintro ⟨b, hb, hbn⟩
      exact ⟨b, List.mem_append_left _ hb, hbn⟩
    · rw [List.getElem?_append] at hj
      split_ifs at hj
      · exact h.joining j n hj
      · exact absurd (List.mem_singleton.mp (List.mem_of_getElem? hj)).symm (hnot n)
  cases a with
  | call request =>
    cases request <;> cases hs
    · exact hjoin _ rfl fun n hn => (by cases hn)
    · exact hjoin _ rfl fun n hn => (by cases hn)
  | advance i input =>
    obtain ⟨old, hc, hadv⟩ := Option.bind_eq_some_iff.mp hs
    exact h.advance hc hok hadv
  | cancel i =>
    obtain ⟨old, hc, hdrop⟩ := Option.bind_eq_some_iff.mp hs
    exact h.cancel hc hok hdrop
  | signal n =>
    simp only [step] at hs
    split_ifs at hs
    cases hs
    have hset := h.setEngine (n := n) (fun e => { e with started := some true }) (fun _ he => he)
      fun _ he => he
    exact hset.engines rfl rfl rfl (fun _ hm => hm) fun _ hm => hm
  | fail n =>
    simp only [step] at hs
    split_ifs at hs
    cases hs
    exact h.setEngine _ (fun _ he => he) fun _ he => he
  | exit n result =>
    simp only [step] at hs
    split_ifs at hs
    cases hs
    have hset := h.setEngine (n := n)
      (fun e => { e with started := e.started.or (some false), result := some result })
      (fun _ he => (by cases he)) fun _ he => he
    exact hset.engines rfl rfl rfl (fun _ hm => hm) fun _ hm => hm
  | die n text =>
    simp only [step] at hs
    split_ifs at hs
    cases hs
    exact h.setEngine _ (fun _ he => (by cases he)) fun _ he => he

theorem create_inv (forceAfterTimeout : Bool) : Inv (.create forceAfterTimeout) := by
  refine ⟨⟨fun n m hn => ?_, fun n hn => ?_⟩, fun i n hc => ?_⟩
  · cases hn
  · cases hn
  · cases hc

end steps

/-- In every run whose steps meet the condition the supervisor has one engine at
most, and never loses the handle of a live one. -/
theorem one_engine (forceAfterTimeout : Bool) {s : FlowSupervisor}
    (h : supervisor.Reach HandlesSound (.create forceAfterTimeout) s) : Sole s :=
  (h.invariant (create_inv forceAfterTimeout) fun _ _ _ hu hok hs => step_inv hu hok hs).toSole

/-- A flow is started and stopped; the stop waits for the engine. -/
theorem one_engine_of_stopping : ∃ s : FlowSupervisor,
    s.alive 0 = true ∧ s.slot = none ∧ s.calls[1]? = some (.waiting 0) ∧ Sole s := by
  refine ⟨_, ?_, ?_, ?_, one_engine true (.step (a := .advance 1 ⟨none, false⟩)
    (.step (a := .advance 1 ⟨none, false⟩) (.step (a := .call .stopGracefully)
      (.step (a := .advance 0 ⟨none, false⟩) (.step (a := .signal 0)
        (.step (a := .advance 0 ⟨none, false⟩) (.step (a := .call .start) .refl ?_ rfl) ?_ rfl)
          ?_ rfl) ?_ rfl) ?_ rfl) ?_ rfl) ?_ rfl)⟩
  · rfl
  · rfl
  · rfl
  · trivial
  · intro _
    refine ⟨fun stage hstage n hn => ?_, fun n hn => ?_⟩
    · rw [List.mem_singleton.mp hstage] at hn
      cases hn
    · cases hn
  all_goals trivial

/-- A flow is started, a stop takes the handle and waits, and another start finds
the slot empty; then the stop gives up and puts its handle over the new one. -/
theorem two_engines : ∃ s : FlowSupervisor, supervisor.Reachable (.create false) s ∧
    s.alive 0 = true ∧ s.alive 1 = true ∧ s.aborted 1 = false ∧ s.slot = some 0 ∧
      (∀ stage ∈ s.calls, stage.holds = none) ∧ ¬ Sole s := by
  have hview : (supervisor.exec (.create false) [.call .start, .advance 0 ⟨none, false⟩, .signal 0,
      .advance 0 ⟨none, false⟩, .call .stopGracefully, .advance 1 ⟨none, false⟩,
      .advance 1 ⟨none, false⟩, .call .start, .advance 2 ⟨none, false⟩, .advance 1 ⟨none, true⟩,
      .advance 1 ⟨none, false⟩]).map (fun s => (s.alive 0, s.alive 1, s.aborted 1, s.slot,
        s.calls.all fun stage => stage.holds.isNone)) =
      some (true, true, false, some 0, true) := rfl
  obtain ⟨s, hrun, heq⟩ := Option.map_eq_some_iff.mp hview
  simp only [Prod.mk.injEq] at heq
  obtain ⟨hfirst, hsecond, haborted, hslot, hholds⟩ := heq
  refine ⟨s, .of_exec _ hrun fun _ _ _ => trivial, hfirst, hsecond, haborted, hslot,
    fun stage hstage => Option.isNone_iff_eq_none.mp (List.all_eq_true.mp hholds stage hstage),
    fun h => ?_⟩
  cases h.one 0 1 hfirst hsecond

end Jaiba.Supervisor
