import Jaiba.Engine.Routing
import Jaiba.Engine.Scheduler

/-!
# The loop and its tasks (`engine/executor/mod.rs`, `engine/processor.rs`)

`run_inner` from the start of its loop, the tasks it spawns and the writes of
the control cell, as one machine. Tasks take their steps between any two steps
of the loop; within `route_emission` and `schedule_available` only the loop
writes what it reads, so each of them is one step.
-/

namespace Jaiba.Engine
open Jaiba.Lib Jaiba.Control Jaiba.Repository

inductive Action where
  /-- a caller or the supervisor writes the control cell -/
  | control (state : FlowLifecycle)
  /-- a task gets its worker permit -/
  | acquire (i : ℕ)
  /-- a task makes its next emission, memory and channel permitting -/
  | emit (i : ℕ)
  | head (input : RouteInput)
  | schedule (input : ScheduleInput)
  | check
  /-- the `select!` takes a finished task -/
  | join (i : ℕ) (now : ℤ)
  /-- the `select!` takes an emission -/
  | receive (input : RouteInput)
  /-- the `select!` takes the deadline of a memory stall -/
  | stall
  /-- the `select!` takes the tick of the domain memory -/
  | maintain
  /-- the `else` of the `select!` -/
  | deadlock
  /-- an error elsewhere in the run, a worker that panics, or a crash -/
  | abort (error : FlowError)

namespace State

variable (σ : Setup)

/-- The emission of the task `t` at position `i` that a terminal relationship or
the channel accepts. -/
def emission (s : State) (t : Task) (relationship : String) (packet : DataPacket) :
    ProcessorEmission := ⟨t.processorId, relationship, packet, s.next, t.queueId⟩

/-- The state after the emission, the channel apart. -/
def accept (s : State) (i : ℕ) (t : Task) (e : ProcessorEmission)
    (rest : List (String × DataPacket)) : State :=
  { s with
    running := s.running.set i { t with program := { t.program with emits := rest } }
    next := s.next + 1
    trace := { s.trace with accepted := s.trace.accepted ++ [e] } }

/-- `OutputSender::emit` by the task `t` at position `i`; a terminal emission
does not take a place in the channel. -/
def emit (s : State) (i : ℕ) (t : Task) (relationship : String) (packet : DataPacket)
    (rest : List (String × DataPacket)) : Option State :=
  let e := s.emission t relationship packet
  if !σ.config.routes t.processorId relationship then some (s.accept i t e rest)
  else if s.channel.length < σ.config.engine.queueCapacity then
    some { s.accept i t e rest with channel := s.channel ++ [e] }
  else none

/-- The head of the loop: leave, wait for a change of the control, or go on with
the deferred emission. -/
def loopHead (s : State) (input : RouteInput) : Option State :=
  if s.running.isEmpty && (s.control = .draining || s.control = .stopped) then
    some { s with phase := .ended .finished }
  else if s.running.isEmpty && s.control = .paused then none
  else
    match s.deferred with
    | none => some { s with phase := .scheduling }
    | some e => some (holdUnrouted e .scheduling (routeEmission σ input { s with deferred := none } e))

/-- The exit test after `schedule_available`. -/
def exitTest (s : State) : State :=
  if s.pending.isEmpty && s.running.isEmpty && s.deferred.isNone then
    match s.channel with
    | e :: rest => { s with deferred := some e, channel := rest, phase := .head }
    | [] => { s with phase := .ended .finished }
  else
    match s.running.isEmpty, s.memoryStall with
    | true, some error => { s with memoryStall := none, phase := .ended (.failed error) }
    | _, _ => { s with phase := .selecting }

/-- The row of a completed task: `fail` or `complete`. -/
def closeRow (db : Option Database) (now : ℤ) (queueId : Option String)
    (failure : Option (String × ℕ)) : Option Database :=
  match db, queueId with
  | some db, some queueId =>
    match failure with
    | some (error, attempt) => some (db.fail now queueId error attempt)
    | none => some (db.complete now queueId .completed)
  | db, _ => db

/-- The completion of the finished task `t` at position `i`. -/
def complete (s : State) (i : ℕ) (t : Task) (now : ℤ) : State :=
  match t.program.outcome with
  | .error error => { s with running := s.running.eraseIdx i, phase := .ended (.failed error) }
  | .ok failure =>
    { s with
      running := s.running.eraseIdx i
      memoryStall := none
      active := Function.update s.active t.processorId (s.active t.processorId - 1)
      partitions := removePartition s.partitions t.processorId t.partitionKey
      db := closeRow s.db now t.queueId failure
      phase := .head }

end State

/-- One step; nothing follows the end of the run. -/
def step (σ : Setup) (s : State) (a : Action) : Option State :=
  match s.phase, a with
  | .ended _, _ => none
  | _, .control state => some { s with control := state }
  | _, .abort error => some { s with phase := .ended (.failed error) }
  | _, .acquire i =>
    match s.running[i]? with
    | some t =>
      if !t.permit && 0 < s.freePermits σ t.mode then
        some { s with running := s.running.set i { t with permit := true } }
      else none
    | none => none
  | _, .emit i =>
    match s.running[i]? with
    | some t =>
      match t.permit, t.program.emits with
      | true, (relationship, packet) :: rest => s.emit σ i t relationship packet rest
      | _, _ => none
    | none => none
  | .head, .head input => s.loopHead σ input
  | .scheduling, .schedule input => some (scheduleAvailable σ input s)
  | .checking, .check => some s.exitTest
  | .selecting, .join i now =>
    match s.running[i]? with
    | some t => if t.finished then some (s.complete i t now) else none
    | none => none
  | .selecting, .receive input =>
    match s.deferred, s.channel with
    | none, e :: rest =>
      some (holdUnrouted e .head (routeEmission σ input { s with channel := rest } e))
    | _, _ => none
  | .selecting, .stall =>
    match s.memoryStall with
    | some error => some { s with memoryStall := none, phase := .ended (.failed error) }
    | none => none
  | .selecting, .maintain =>
    if σ.config.engine.domainMemoryEnabled then some { s with phase := .head } else none
  | .selecting, .deadlock =>
    if s.running.isEmpty && s.deferred.isSome && s.memoryStall.isNone &&
        !σ.config.engine.domainMemoryEnabled then
      some { s with phase := .ended (.failed (.server
        "flow deadlocked: deferred emission exceeds engine.queue_capacity")) }
    else none
  | _, _ => none

/-- One run of the engine from the start of its loop. -/
def engine (σ : Setup) : Machine State Action := ⟨step σ⟩

/-! ### What a step does -/

/-- `Transition σ s a t`: the ways in which action `a` leads from `s` to `t`,
each with what it has tested. -/
inductive Transition (σ : Setup) (s : State) : Action → State → Prop where
  | control (c : FlowLifecycle) : Transition σ s (.control c) { s with control := c }
  | abort (error : FlowError) :
      Transition σ s (.abort error) { s with phase := .ended (.failed error) }
  | acquire {i : ℕ} {x : Task} : s.running[i]? = some x → x.permit = false →
      0 < s.freePermits σ x.mode →
      Transition σ s (.acquire i) { s with running := s.running.set i { x with permit := true } }
  | emit {i : ℕ} {x : Task} {relationship : String} {packet : DataPacket}
      {rest : List (String × DataPacket)} {t : State} : s.running[i]? = some x →
      x.permit = true → x.program.emits = (relationship, packet) :: rest →
      s.emit σ i x relationship packet rest = some t → Transition σ s (.emit i) t
  | leave {input : RouteInput} : s.phase = .head → s.running = [] →
      (s.control = .draining ∨ s.control = .stopped) →
      Transition σ s (.head input) { s with phase := .ended .finished }
  | resume {input : RouteInput} : s.phase = .head → s.deferred = none →
      Transition σ s (.head input) { s with phase := .scheduling }
  | route {input : RouteInput} {e : ProcessorEmission} : s.phase = .head →
      s.deferred = some e → Transition σ s (.head input)
        (holdUnrouted e .scheduling (routeEmission σ input { s with deferred := none } e))
  | schedule {input : ScheduleInput} : s.phase = .scheduling →
      Transition σ s (.schedule input) (scheduleAvailable σ input s)
  | refill {e : ProcessorEmission} {rest : List ProcessorEmission} : s.phase = .checking →
      s.pending = [] → s.running = [] → s.deferred = none → s.channel = e :: rest →
      Transition σ s .check { s with deferred := some e, channel := rest, phase := .head }
  | finish : s.phase = .checking → s.pending = [] → s.running = [] → s.deferred = none →
      s.channel = [] → Transition σ s .check { s with phase := .ended .finished }
  | giveUp {error : FlowError} : s.phase = .checking → s.running = [] →
      s.memoryStall = some error →
      Transition σ s .check { s with memoryStall := none, phase := .ended (.failed error) }
  | select : s.phase = .checking → (s.pending ≠ [] ∨ s.running ≠ [] ∨ s.deferred ≠ none) →
      (s.running = [] → s.memoryStall = none) →
      Transition σ s .check { s with phase := .selecting }
  | join {i : ℕ} {x : Task} {now : ℤ} : s.phase = .selecting → s.running[i]? = some x →
      x.finished = true → Transition σ s (.join i now) (s.complete i x now)
  | receive {input : RouteInput} {e : ProcessorEmission} {rest : List ProcessorEmission} :
      s.phase = .selecting → s.deferred = none → s.channel = e :: rest →
      Transition σ s (.receive input)
        (holdUnrouted e .head (routeEmission σ input { s with channel := rest } e))
  | stall {error : FlowError} : s.phase = .selecting → s.memoryStall = some error →
      Transition σ s .stall { s with memoryStall := none, phase := .ended (.failed error) }
  | maintain : s.phase = .selecting → Transition σ s .maintain { s with phase := .head }
  | deadlock : s.phase = .selecting → s.running = [] → s.deferred ≠ none →
      Transition σ s .deadlock { s with phase := .ended (.failed (.server
        "flow deadlocked: deferred emission exceeds engine.queue_capacity")) }

theorem loopHead_transition {σ : Setup} {s t : State} {input : RouteInput}
    (hp : s.phase = .head) (h : s.loopHead σ input = some t) :
    Transition σ s (.head input) t := by
  unfold State.loopHead at h
  split at h
  next hleave =>
    cases h
    simp only [Bool.and_eq_true, Bool.or_eq_true, decide_eq_true_eq, List.isEmpty_iff] at hleave
    exact .leave hp hleave.1 hleave.2
  next =>
    split at h
    · cases h
    · split at h
      next hd =>
        cases h
        exact .resume hp hd
      next e hd =>
        cases h
        exact .route hp hd

theorem exitTest_transition {σ : Setup} {s : State} (hp : s.phase = .checking) :
    Transition σ s .check s.exitTest := by
  unfold State.exitTest
  split
  next hidle =>
    simp only [Bool.and_eq_true, List.isEmpty_iff, Option.isNone_iff_eq_none] at hidle
    split
    next e rest hc => exact .refill hp hidle.1.1 hidle.1.2 hidle.2 hc
    next hc => exact .finish hp hidle.1.1 hidle.1.2 hidle.2 hc
  next hbusy =>
    split
    next error hr hm => exact .giveUp hp (List.isEmpty_iff.mp hr) hm
    next hno =>
      refine .select hp ?_ fun hr => ?_
      · by_contra hidle
        simp only [not_or, not_not] at hidle
        simp [hidle] at hbusy
      · cases hm : s.memoryStall with
        | none => rfl
        | some error => exact (hno error (by simp [hr]) hm).elim

theorem step_transition {σ : Setup} {s t : State} {a : Action} (h : step σ s a = some t) :
    (∀ exit, s.phase ≠ .ended exit) ∧ Transition σ s a t := by
  unfold step at h
  split at h
  · cases h
  next hp =>
    cases h
    exact ⟨hp, .control _⟩
  next hp =>
    cases h
    exact ⟨hp, .abort _⟩
  next hp =>
    split at h
    next x hx =>
      split at h
      next hg =>
        cases h
        simp only [Bool.and_eq_true, Bool.not_eq_true', decide_eq_true_eq] at hg
        exact ⟨hp, .acquire hx hg.1 hg.2⟩
      · cases h
    · cases h
  next hp =>
    split at h
    next x hx =>
      split at h
      next relationship packet rest hpermit hemits => exact ⟨hp, .emit hx hpermit hemits h⟩
      · cases h
    · cases h
  next hp => exact ⟨by simp [hp], loopHead_transition hp h⟩
  next hp =>
    cases h
    exact ⟨by simp [hp], .schedule hp⟩
  next hp =>
    cases h
    exact ⟨by simp [hp], exitTest_transition hp⟩
  next hp =>
    split at h
    next x hx =>
      split at h
      next hf =>
        cases h
        exact ⟨by simp [hp], .join hp hx hf⟩
      · cases h
    · cases h
  next hp =>
    split at h
    next hd hc =>
      cases h
      exact ⟨by simp [hp], .receive hp hd hc⟩
    · cases h
  next hp =>
    split at h
    next hm =>
      cases h
      exact ⟨by simp [hp], .stall hp hm⟩
    · cases h
  next hp =>
    split at h
    · cases h
      exact ⟨by simp [hp], .maintain hp⟩
    · cases h
  next hp =>
    split at h
    next hg =>
      cases h
      simp only [Bool.and_eq_true, List.isEmpty_iff, Option.isSome_iff_ne_none] at hg
      exact ⟨by simp [hp], .deadlock hp hg.1.1.1 hg.1.1.2⟩
    · cases h
  · cases h

/-! ### Completion of a task -/

theorem complete_frame (s : State) (i : ℕ) (x : Task) (now : ℤ) :
    (s.complete i x now).trace = s.trace ∧ (s.complete i x now).waiting = s.waiting ∧
      (s.complete i x now).next = s.next ∧
      (s.complete i x now).running = s.running.eraseIdx i := by
  unfold State.complete
  split <;> exact ⟨rfl, rfl, rfl, rfl⟩

/-- The repository after a completion: as it was, or with one row closed. -/
theorem complete_db {s : State} {db : Database} (i : ℕ) (x : Task) (now : ℤ)
    (h : s.db = some db) :
    ((s.complete i x now).db = some db ∧ (x.program.outcome ≠ .ok none ∨ x.queueId = none)) ∨
    (∃ q error attempt, x.queueId = some q ∧ x.program.outcome = .ok (some (error, attempt)) ∧
      (s.complete i x now).db = some (db.fail now q error attempt)) ∨
    ∃ q, x.queueId = some q ∧ x.program.outcome = .ok none ∧
      (s.complete i x now).db = some (db.complete now q .completed) := by
  unfold State.complete
  cases hout : x.program.outcome with
  | error error => exact .inl ⟨h, .inl (by simp)⟩
  | ok failure =>
    cases hq : x.queueId with
    | none => exact .inl ⟨by simp [h, State.closeRow], .inr rfl⟩
    | some q =>
      cases failure with
      | none => exact .inr (.inr ⟨q, rfl, rfl, by simp [h, State.closeRow]⟩)
      | some failure => exact .inr (.inl ⟨q, failure.1, failure.2, rfl, rfl,
          by simp [h, State.closeRow]⟩)

theorem complete_db_none {s : State} (i : ℕ) (x : Task) (now : ℤ) (h : s.db = none) :
    (s.complete i x now).db = none := by
  unfold State.complete
  split
  · exact h
  · rw [h]
    rfl

/-- Memory granted, with fresh ids. -/
def grantedAt (now : ℤ) (queueIds : List String) : RouteInput :=
  ⟨none, queueIds, none, now, .channelClosed⟩

/-- Every claim is answered. -/
def claimsAt (now : ℤ) : ScheduleInput := ⟨now, fun _ => none⟩

/-- One round of the loop from its head to its `select!`. -/
def round (now : ℤ) : List Action := [.head (grantedAt now []), .schedule (claimsAt now), .check]

end Jaiba.Engine
