import Jaiba.Engine.Coherence

/-!
# Continuations of a run

Which steps of the loop and of the tasks are enabled, and how a task runs to its
end while the channel has places for what it still emits.
-/

namespace Jaiba.Engine
open Jaiba.Lib Jaiba.Control Jaiba.Repository

/-- Steps of the loop and of the tasks, with memory granted and claims answered. -/
def Allowed : Action → Prop
  | .control _ | .abort _ | .stall | .deadlock => False
  | .head input | .receive input => input.memory = none
  | .schedule input => input.claimError = fun _ => none
  | _ => True

abbrev Continues (σ : Setup) : State → State → Prop := (engine σ).Path Allowed

def State.Live (s : State) : Prop := ∀ exit, s.phase ≠ .ended exit

variable {σ : Setup} {s t : State}

/-! ### Enabled steps -/

theorem live_of_phase {p : Phase} (h : s.phase = p) (hp : ∀ exit, p ≠ .ended exit) : s.Live :=
  fun exit he => hp exit (h ▸ he)

theorem step_acquire {i : ℕ} {x : Task} (hlive : s.Live) (hx : s.running[i]? = some x)
    (hpermit : x.permit = false) (hfree : 0 < s.freePermits σ x.mode) :
    step σ s (.acquire i) = some { s with running := s.running.set i { x with permit := true } } := by
  unfold step
  split <;> simp_all [State.Live]

theorem step_emit {i : ℕ} {x : Task} {relationship : String} {packet : DataPacket}
    {rest : List (String × DataPacket)} (hlive : s.Live) (hx : s.running[i]? = some x)
    (hpermit : x.permit = true) (hemits : x.program.emits = (relationship, packet) :: rest) :
    step σ s (.emit i) = s.emit σ i x relationship packet rest := by
  unfold step
  split <;> simp_all [State.Live]

theorem step_head (input : RouteInput) (hp : s.phase = .head) :
    step σ s (.head input) = s.loopHead σ input := by
  simp only [step, hp]

theorem step_schedule (input : ScheduleInput) (hp : s.phase = .scheduling) :
    step σ s (.schedule input) = some (scheduleAvailable σ input s) := by
  simp only [step, hp]

theorem step_check (hp : s.phase = .checking) : step σ s .check = some s.exitTest := by
  simp only [step, hp]

theorem step_join {i : ℕ} {x : Task} (now : ℤ) (hp : s.phase = .selecting)
    (hx : s.running[i]? = some x) (hf : x.finished = true) :
    step σ s (.join i now) = some (s.complete i x now) := by
  simp only [step, hp, hx, hf, if_true]

theorem step_receive (input : RouteInput) {e : ProcessorEmission}
    {rest : List ProcessorEmission} (hp : s.phase = .selecting) (hd : s.deferred = none)
    (hc : s.channel = e :: rest) : step σ s (.receive input) =
      some (holdUnrouted e .head (routeEmission σ input { s with channel := rest } e)) := by
  simp only [step, hp, hd, hc]

/-- The loop goes on while tasks run or the flow is `RUNNING`. -/
theorem loopHead_attempt {input : RouteInput} {e : ProcessorEmission}
    (hgo : s.running ≠ [] ∨ s.control = .running) (hd : s.deferred = some e) :
    s.loopHead σ input = some
      (holdUnrouted e .scheduling (routeEmission σ input { s with deferred := none } e)) := by
  unfold State.loopHead
  rcases hgo with h | h <;> simp [h, hd]

theorem loopHead_resume {input : RouteInput} (hgo : s.running ≠ [] ∨ s.control = .running)
    (hd : s.deferred = none) : s.loopHead σ input = some { s with phase := .scheduling } := by
  unfold State.loopHead
  rcases hgo with h | h <;> simp [h, hd]

/-- The exit test passes on to the `select!` while there is work and no stall. -/
theorem exitTest_select (hm : s.memoryStall = none)
    (hwork : s.pending ≠ [] ∨ s.running ≠ [] ∨ s.deferred ≠ none) :
    s.exitTest = { s with phase := .selecting } := by
  unfold State.exitTest
  rw [if_neg, hm]
  · cases s.running <;> rfl
  · intro hidle
    simp only [Bool.and_eq_true, List.isEmpty_iff, Option.isNone_iff_eq_none] at hidle
    rcases hwork with h | h | h
    · exact h hidle.1.1
    · exact h hidle.1.2
    · exact h hidle.2

/-! ### Invariants along a continuation -/

/-- What every step keeps while the run is alive holds where a continuation ends
alive. -/
theorem Continues.invariant {I : State → Prop} (h : Continues σ s t) (hs : I s)
    (hstep : ∀ u a v, I u → Allowed a → step σ u a = some v → (∃ exit, v.phase = .ended exit) ∨ I v)
    (ht : t.Live) : I t := by
  have hinv : (∃ exit, t.phase = .ended exit) ∨ I t := by
    refine Machine.Reach.invariant (I := fun u => (∃ exit, u.phase = .ended exit) ∨ I u) h
      (.inr hs) fun u a v hu ha hv => ?_
    rcases hu with ⟨exit, he⟩ | hu
    · exact absurd he ((step_transition hv).1 exit)
    · exact hstep u a v hu ha hv
  exact hinv.resolve_left fun ⟨exit, he⟩ => ht exit he

theorem Continues.coherent (h : Continues σ s t) (hs : Coherent σ s) (ht : t.Live) :
    Coherent σ t := Continues.invariant h hs (fun _ _ _ hu _ hv => step_coherent hu hv) ht

/-! ### A task runs to its end -/

/-- What a task still emits through the channel. -/
def remaining (σ : Setup) (x : Task) : List (String × DataPacket) :=
  σ.routed x.processorId x.program.emits

/-- The task with nothing left to emit. -/
def Task.exhausted (x : Task) : Task := { x with program := { x.program with emits := [] } }

/-- Processor and relationship of an emission. -/
def ProcessorEmission.edge (e : ProcessorEmission) : String × String :=
  (e.processorId, e.relationship)

theorem set_of_getElem? {α : Type} {l : List α} {i : ℕ} {x : α} (h : l[i]? = some x) :
    l.set i x = l := by
  obtain ⟨hi, rfl⟩ := List.getElem?_eq_some_iff.mp h
  exact List.set_getElem_self hi

/-- The emissions of a task enter the channel one after another. -/
theorem run_task {i : ℕ} {x : Task} (hlive : s.Live) (hx : s.running[i]? = some x)
    (hpermit : x.permit = true)
    (hroom : s.channel.length + (remaining σ x).length ≤ σ.config.engine.queueCapacity) :
    ∃ t new, Continues σ s t ∧
      new.map ProcessorEmission.edge = (remaining σ x).map (fun e => (x.processorId, e.1)) ∧
      t = { s with
        running := s.running.set i x.exhausted
        channel := s.channel ++ new
        next := t.next
        trace := { s.trace with accepted := t.trace.accepted } } := by
  generalize hemits : x.program.emits = emits
  induction emits generalizing s x with
  | nil =>
    have hsame : x.exhausted = x := by
      simp only [Task.exhausted, ← hemits]
    refine ⟨s, [], .refl s, by simp [remaining, hemits, Setup.routed], ?_⟩
    rw [hsame, set_of_getElem? hx, List.append_nil]
  | cons head rest ih =>
    obtain ⟨relationship, packet⟩ := head
    have hstep := step_emit (σ := σ) hlive hx hpermit hemits
    generalize hx' : ({ x with program := { x.program with emits := rest } } : Task) = x'
    have hid : x'.processorId = x.processorId := hx' ▸ rfl
    have hexhausted : x'.exhausted = x.exhausted := by rw [← hx']; rfl
    generalize he : s.emission x relationship packet = e
    have hget : (s.accept i x e rest).running[i]? = some x' := by
      rw [State.accept, hx', List.getElem?_set_self (List.getElem?_eq_some_iff.mp hx).1]
    by_cases hroutes : σ.config.routes x.processorId relationship = true
    · have hrem : remaining σ x = (relationship, packet) :: remaining σ x' := by
        simp [← hx', remaining, hemits, Setup.routed, hroutes]
      rw [hrem, List.length_cons] at hroom
      have hplace : s.channel.length < σ.config.engine.queueCapacity := by omega
      have hstep' : step σ s (.emit i) =
          some { s.accept i x e rest with channel := s.channel ++ [e] } := by
        rw [hstep, State.emit, he]
        simp [hroutes, hplace]
      obtain ⟨t, new, hpath, hnew, ht⟩ := ih
        (s := { s.accept i x e rest with channel := s.channel ++ [e] }) (x := x') hlive hget
        (hx' ▸ hpermit) (by rw [List.length_append, List.length_singleton]; omega) (hx' ▸ rfl)
      refine ⟨t, e :: new, (Machine.Path.one (.emit i) trivial hstep').trans hpath, ?_, ?_⟩
      · rw [hrem, List.map_cons, List.map_cons, hnew, ← he, hid]
        rfl
      · rw [ht, hexhausted]
        simp only [State.accept, List.set_set, List.append_assoc, List.singleton_append]
    · have hrem : remaining σ x = remaining σ x' := by
        simp [← hx', remaining, hemits, Setup.routed, hroutes]
      rw [hrem] at hroom
      have hstep' : step σ s (.emit i) = some (s.accept i x e rest) := by
        rw [hstep, State.emit, he]
        simp [hroutes]
      obtain ⟨t, new, hpath, hnew, ht⟩ := ih (s := s.accept i x e rest) (x := x') hlive hget
        (hx' ▸ hpermit) hroom (hx' ▸ rfl)
      refine ⟨t, new, (Machine.Path.one (.emit i) trivial hstep').trans hpath, ?_, ?_⟩
      · rw [hrem, ← hid]
        exact hnew
      · rw [ht, hexhausted]
        simp only [State.accept, List.set_set]

/-! ### States that are never left -/

/-- The task waits for a permit of an exhausted pool, or for a place in the channel. -/
def Blocked (σ : Setup) (s : State) (x : Task) : Prop :=
  (x.permit = false ∧ s.freePermits σ x.mode = 0) ∨
    (x.permit = true ∧ ∃ relationship packet rest,
      x.program.emits = (relationship, packet) :: rest ∧
        σ.config.routes x.processorId relationship = true)

/-- The loop waits in its `select!` for tasks that all wait for the loop. -/
structure Wedged (σ : Setup) (s : State) : Prop where
  phase : s.phase = .selecting
  deferred : s.deferred ≠ none
  stall : s.memoryStall = none
  tick : σ.config.engine.domainMemoryEnabled = false
  channel : σ.config.engine.queueCapacity ≤ s.channel.length
  running : s.running ≠ []
  blocked : ∀ x ∈ s.running, Blocked σ s x

/-- Only a write of the control cell or an error elsewhere is left. -/
theorem Wedged.step (h : Wedged σ s) {a : Action} (hs : step σ s a = some t) :
    t.trace = s.trace ∧ t.running = s.running ∧
      (Wedged σ t ∨ ∃ error, t.phase = .ended (.failed error)) := by
  have hphase : ∀ {p : Phase}, s.phase = p → p = .selecting := fun hp => hp ▸ h.phase
  obtain ⟨_, htr⟩ := step_transition hs
  cases htr with
  | control c =>
    exact ⟨rfl, rfl, .inl ⟨h.phase, h.deferred, h.stall, h.tick, h.channel, h.running, h.blocked⟩⟩
  | abort error => exact ⟨rfl, rfl, .inr ⟨error, rfl⟩⟩
  | acquire hx hpermit hfree =>
    rcases h.blocked _ (List.mem_of_getElem? hx) with ⟨_, hno⟩ | ⟨htrue, _⟩
    · omega
    · rw [hpermit] at htrue
      cases htrue
  | emit hx hpermit hemits hemit =>
    rcases h.blocked _ (List.mem_of_getElem? hx) with ⟨hno, _⟩ | ⟨_, r, p, rest, he, hroutes⟩
    · rw [hpermit] at hno
      cases hno
    · rw [hemits] at he
      cases he
      have hfull := h.channel
      rw [State.emit] at hemit
      simp only [hroutes, Bool.not_true, Bool.false_eq_true, if_false] at hemit
      rw [if_neg (by omega)] at hemit
      cases hemit
  | leave hp | resume hp | route hp | schedule hp | refill hp | finish hp | giveUp hp | select hp =>
    cases hphase hp
  | join _ hx hfin =>
    rw [Task.finished, Bool.and_eq_true] at hfin
    rcases h.blocked _ (List.mem_of_getElem? hx) with ⟨hno, _⟩ | ⟨_, r, p, rest, he, _⟩
    · rw [hfin.1] at hno
      cases hno
    · rw [he] at hfin
      cases hfin.2
  | receive _ hd => exact absurd hd h.deferred
  | stall _ hm =>
    rw [h.stall] at hm
    cases hm
  | maintain hp =>
    simp only [Jaiba.Engine.step, hp, h.tick] at hs
    cases hs
  | deadlock _ hr => exact absurd hr h.running

/-- Whatever happens, nothing more is accepted or routed and no task ends. -/
theorem Wedged.forever (h : Wedged σ s) (hr : (engine σ).Reachable s t) :
    t.trace = s.trace ∧ t.running = s.running := by
  have hinv : (t.trace = s.trace ∧ t.running = s.running) ∧
      (Wedged σ t ∨ ∃ error, t.phase = .ended (.failed error)) := by
    refine Machine.Reach.invariant (I := fun t => (t.trace = s.trace ∧ t.running = s.running) ∧
      (Wedged σ t ∨ ∃ error, t.phase = .ended (.failed error))) hr ⟨⟨rfl, rfl⟩, .inl h⟩
      fun u a v hu _ hs => ?_
    obtain ⟨⟨htrace, hrunning⟩, hw | ⟨error, he⟩⟩ := hu
    · obtain ⟨ht, hrun, hend⟩ := hw.step hs
      exact ⟨⟨ht.trans htrace, hrun.trans hrunning⟩, hend⟩
    · exact absurd he ((step_transition hs).1 _)
  exact hinv.1

theorem Wedged.never_routed (h : Wedged σ s) (e : ProcessorEmission)
    (hr : (engine σ).Reachable s t) : t.trace.routed ≠ s.trace.routed ++ [e] := by
  intro heq
  rw [(h.forever hr).1] at heq
  have hlength := congrArg List.length heq
  rw [List.length_append, List.length_singleton] at hlength
  omega

end Jaiba.Engine
