import Jaiba.Engine.Progress

/-!
# Routing of the oldest waiting emission

While an emission is deferred nothing is received. It can be routed once the
stages below have worked off what they hold, and for this they may need places
in the channel for their own emissions.
-/

namespace Jaiba.Engine
open Jaiba.Lib Jaiba.Control Jaiba.Repository

/-- The memory budget does not block: reservations are granted. -/
def Granted (_ : State) : Action → Prop
  | .head input | .receive input => input.memory = none
  | _ => True

/-- Nor does it end the flow. -/
def FitsMemory (σ : Setup) : Prop :=
  ∀ serial id packet b m, (σ.execute serial id packet).result ≠ .error (.packetTooLarge b m)

/-- What follows for a run in which the memory budget does not block. -/
structure Undisturbed (σ : Setup) (s : State) : Prop where
  stall : s.memoryStall = none
  outcome : ∀ x ∈ s.running, ∃ failure, x.program.outcome = .ok failure
  tried : s.phase = .scheduling → ∀ e, s.deferred = some e →
    fits σ.config s.pending s.active (σ.config.outgoing e.processorId e.relationship) = false

variable {σ : Setup} {s t : State}

theorem Undisturbed.set (h : Undisturbed σ s) {i : ℕ} {x y : Task}
    (hx : s.running[i]? = some x) (hr : t.running = s.running.set i y)
    (hy : y.program.outcome = x.program.outcome) (hm : t.memoryStall = s.memoryStall)
    (hp : t.phase = s.phase) (hq : t.pending = s.pending) (ha : t.active = s.active)
    (hd : t.deferred = s.deferred) : Undisturbed σ t where
  stall := hm.trans h.stall
  outcome := by
    intro z hz
    rw [hr] at hz
    rcases List.mem_or_eq_of_mem_set hz with hz | rfl
    · exact h.outcome z hz
    · rw [hy]
      exact h.outcome x (List.mem_of_getElem? hx)
  tried := by
    rw [hp, hq, ha, hd]
    exact h.tried

theorem Undisturbed.publishes {e : ProcessorEmission} {ks : List ConnectionConfig}
    (hp : Publishes σ e s ks t) : t.memoryStall = s.memoryStall ∧ t.running = s.running := by
  rw [hp.frame]
  exact ⟨rfl, rfl⟩

theorem Undisturbed.route {input : RouteInput} {e : ProcessorEmission} {next : Phase}
    (h : Undisturbed σ s) (hm : input.memory = none) :
    (∃ exit, (holdUnrouted e next (routeEmission σ input s e)).phase = .ended exit) ∨
      Undisturbed σ (holdUnrouted e next (routeEmission σ input s e)) := by
  rcases routeEmission_cases σ input s e with
    ⟨u, hu, hp⟩ | ⟨hu, hfits⟩ | ⟨error, hu, hsome⟩ | ⟨error, _, u, done, hu, _⟩
  · rw [hu]
    have hrun : u.running = s.running := (Undisturbed.publishes hp).2
    exact .inr ⟨rfl, fun x hx => h.outcome x (hrun ▸ hx), fun _ _ hd => by cases hd⟩
  · rw [hu]
    refine .inr ⟨rfl, h.outcome, fun _ e' hd => ?_⟩
    cases hd
    exact hfits
  · rw [hm] at hsome
    cases hsome
  · rw [hu]
    exact .inl ⟨_, rfl⟩

theorem Schedules.undisturbed {input : ScheduleInput} {backlog : ℕ} (hf : FitsMemory σ)
    (hs : Schedules σ input backlog s t) (h : Undisturbed σ s) :
    (∃ exit, t.phase = .ended exit) ∨ (t.phase = .checking ∧ t.memoryStall = none ∧
      ∀ x ∈ t.running, ∃ failure, x.program.outcome = .ok failure) := by
  have hout := h.outcome
  have hstall := h.stall
  clear h
  induction hs with
  | idle => exact .inr ⟨rfl, hstall, hout⟩
  | start _ _ _ _ ih =>
    refine ih (fun x hx => ?_) hstall
    rcases List.mem_append.mp hx with hx | hx
    · exact hout x hx
    · rw [List.mem_singleton.mp hx]
      exact executeWithRetry_outcome (hf _ _) _ _ _
  | stop => exact .inl ⟨_, rfl⟩

theorem complete_ok {i : ℕ} {x : Task} (now : ℤ) {failure : Option (String × ℕ)}
    (h : x.program.outcome = .ok failure) :
    (s.complete i x now).phase = .head ∧ (s.complete i x now).memoryStall = none ∧
      (s.complete i x now).control = s.control ∧ (s.complete i x now).pending = s.pending ∧
      (s.complete i x now).deferred = s.deferred ∧ (s.complete i x now).channel = s.channel := by
  unfold State.complete
  rw [h]
  exact ⟨rfl, rfl, rfl, rfl, rfl, rfl⟩

theorem step_undisturbed {a : Action} (hf : FitsMemory σ) (h : Undisturbed σ s)
    (ha : Granted s a) (hs : step σ s a = some t) :
    (∃ exit, t.phase = .ended exit) ∨ Undisturbed σ t := by
  obtain ⟨_, htr⟩ := step_transition hs
  cases htr with
  | abort | leave | finish | giveUp | stall | deadlock => exact .inl ⟨_, rfl⟩
  | control => exact .inr ⟨h.stall, h.outcome, h.tried⟩
  | resume _ hd =>
    refine .inr ⟨h.stall, h.outcome, fun _ e he => ?_⟩
    rw [show s.deferred = some e from he] at hd
    cases hd
  | select | maintain | refill => exact .inr ⟨h.stall, h.outcome, fun hp => by cases hp⟩
  | acquire hx => exact .inr (h.set hx rfl rfl rfl rfl rfl rfl rfl)
  | emit hx _ _ hemit =>
    unfold State.emit at hemit
    simp only at hemit
    split_ifs at hemit <;> cases hemit <;> exact .inr (h.set hx rfl rfl rfl rfl rfl rfl rfl)
  | route =>
    have hu : Undisturbed σ { s with deferred := none } :=
      ⟨h.stall, h.outcome, fun _ _ hd => by cases hd⟩
    exact hu.route ha
  | @schedule input =>
    rcases scheduleAvailable_cases σ input s with ⟨_, heq⟩ | ⟨_, hsch⟩
    · rw [heq]
      exact .inr ⟨h.stall, h.outcome, fun hp => by cases hp⟩
    · rcases hsch.undisturbed hf h with hend | ⟨hp, hm, ho⟩
      · exact .inl hend
      · refine .inr ⟨hm, ho, fun hp' => ?_⟩
        rw [hp] at hp'
        cases hp'
  | @join i x now _ hx =>
    obtain ⟨failure, hout⟩ := h.outcome x (List.mem_of_getElem? hx)
    obtain ⟨hp, hm, _⟩ := complete_ok (s := s) (i := i) now hout
    refine .inr ⟨hm, fun y hy => ?_, fun hp' => ?_⟩
    · rw [(complete_frame s i x now).2.2.2] at hy
      exact h.outcome y (List.mem_of_mem_eraseIdx hy)
    · rw [hp] at hp'
      cases hp'
  | @receive _ _ rest _ hd =>
    have hu : Undisturbed σ { s with channel := rest } := by
      refine ⟨h.stall, h.outcome, fun _ e he => ?_⟩
      rw [show s.deferred = some e from he] at hd
      cases hd
    exact hu.route ha

/-! ### Room for an emission -/

/-- Processor and execution mode of the running tasks. -/
def State.modes (s : State) : List (String × ExecutionMode) :=
  s.running.map fun x => (x.processorId, x.mode)

/-- The mode in which an item will execute. -/
def itemMode (σ : Setup) (w : WorkItem) : ExecutionMode :=
  match σ.config.definition? w.processorId with
  | some p => σ.modeOf p
  | none => .auto

/-- What an item will emit through the channel. -/
def itemRouted (σ : Setup) (w : WorkItem) : List (String × DataPacket) :=
  match σ.config.definition? w.processorId with
  | some p => σ.routed w.processorId (σ.programOf w p).emits
  | none => []

/-- Emissions still to come from the tasks less than `d` stages above the end. -/
def runningLoad (σ : Setup) (d : ℕ) (running : List Task) : ℕ :=
  (running.map fun x =>
    if atLeast σ.config d x.processorId then 0 else (remaining σ x).length).sum

/-- Emissions to come from the queued items of these stages. -/
def pendingLoad (σ : Setup) (d : ℕ) (pending : List WorkItem) : ℕ :=
  (pending.map fun w =>
    if atLeast σ.config d w.processorId then 0 else (itemRouted σ w).length).sum

/-- Room for the oldest waiting emission `e`, `rest` waiting behind it, once the
stages below `d` are idle; and places enough in the channel for them to get there. -/
structure Room (σ : Setup) (d : ℕ) (s : State) (e : ProcessorEmission)
    (rest : List ProcessorEmission) : Prop where
  load : runningLoad σ d s.running + pendingLoad σ d s.pending + rest.length ≤
    σ.config.engine.queueCapacity
  targets : ∀ k ∈ σ.config.outgoing e.processorId e.relationship,
    atLeast σ.config d k.target = false
  parallel : ∀ k ∈ σ.config.outgoing e.processorId e.relationship, ∀ p maximum,
    σ.config.definition? k.target = some p → p.scheduling.maximumInFlight = some maximum →
    ((σ.config.outgoing e.processorId e.relationship).countP fun j => j.target = k.target) ≤
      maximum
  above : (s.pending.countP fun w => !w.isSourceSeed && atLeast σ.config d w.processorId) +
    (σ.config.outgoing e.processorId e.relationship).length ≤ σ.config.engine.queueCapacity
  edges : ∀ k ∈ σ.config.outgoing e.processorId e.relationship,
    (s.pending.countP fun w =>
      w.connection = some k.connectionId && atLeast σ.config d w.processorId) < k.capacity
  startable : ∀ w ∈ s.pending, ∃ p key, σ.config.definition? w.processorId = some p ∧
    partitionKeyOf p w = .ok key
  pools : ∀ mode, pooled mode = true →
    ((∃ r ∈ s.modes, atLeast σ.config d r.1 = false ∧ r.2 = mode) ∨
      ∃ w ∈ s.pending, atLeast σ.config d w.processorId = false ∧ itemMode σ w = mode) →
    (s.modes.countP fun r => atLeast σ.config d r.1 && r.2 = mode) +
      (s.pending.countP fun w => atLeast σ.config d w.processorId && itemMode σ w = mode) <
      σ.pool mode

/-- Something will bring the loop back to its head: the tick of the domain
memory, a task below `d`, or a task whose emissions fit in the channel as well. -/
def Awake (σ : Setup) (d : ℕ) (s : State) (rest : List ProcessorEmission) : Prop :=
  (s.phase = .checking ∨ s.phase = .selecting) → s.deferred.isSome →
    σ.config.engine.domainMemoryEnabled = true ∨
    ∃ (i : ℕ) (x : Task), s.running[i]? = some x ∧ (atLeast σ.config d x.processorId = false ∨
      x.permit = true ∧ runningLoad σ d s.running + pendingLoad σ d s.pending +
        (remaining σ x).length + rest.length ≤ σ.config.engine.queueCapacity)

section room
variable {d : ℕ} {e : ProcessorEmission} {rest : List ProcessorEmission}

theorem runningLoad_perm {l l' : List Task} (h : l.Perm l') :
    runningLoad σ d l = runningLoad σ d l' := (h.map _).sum_nat

theorem pendingLoad_perm {l l' : List WorkItem} (h : l.Perm l') :
    pendingLoad σ d l = pendingLoad σ d l' := (h.map _).sum_nat

theorem runningLoad_append (l l' : List Task) :
    runningLoad σ d (l ++ l') = runningLoad σ d l + runningLoad σ d l' := by
  simp only [runningLoad, List.map_append, List.sum_append]

theorem pendingLoad_append (l l' : List WorkItem) :
    pendingLoad σ d (l ++ l') = pendingLoad σ d l + pendingLoad σ d l' := by
  simp only [pendingLoad, List.map_append, List.sum_append]

theorem runningLoad_erase {running : List Task} {i : ℕ} {x : Task} (h : running[i]? = some x) :
    runningLoad σ d [x] + runningLoad σ d (running.eraseIdx i) = runningLoad σ d running := by
  obtain ⟨hi, rfl⟩ := List.getElem?_eq_some_iff.mp h
  rw [← runningLoad_append]
  exact runningLoad_perm (List.getElem_cons_eraseIdx_perm hi)

theorem runningLoad_set {running : List Task} {i : ℕ} {x y : Task} (h : running[i]? = some x) :
    runningLoad σ d (running.set i y) + runningLoad σ d [x] =
      runningLoad σ d running + runningLoad σ d [y] := by
  have hy : (running.set i y)[i]? = some y := by
    rw [List.getElem?_set_self (List.getElem?_eq_some_iff.mp h).1]
  have hx' := runningLoad_erase (σ := σ) (d := d) h
  have hy' := runningLoad_erase (σ := σ) (d := d) hy
  rw [List.eraseIdx_set_eq] at hy'
  omega

/-- The item of a start carries its emissions to the task. -/
theorem load_taskOf {w : WorkItem} {p : ProcessorConfig} {key : Option String}
    (h : σ.config.definition? w.processorId = some p) :
    runningLoad σ d [taskOf σ w p key] = pendingLoad σ d [w] := by
  simp only [runningLoad, pendingLoad, List.map_cons, List.map_nil, List.sum_cons, List.sum_nil,
    taskOf, remaining, itemRouted, h]

/-- Fewer tasks and the same queue: only the load has to be shown again. -/
theorem Room.frame {rest' : List ProcessorEmission} (h : Room σ d s e rest)
    (hq : t.pending = s.pending) (hm : t.modes.Sublist s.modes)
    (hl : runningLoad σ d t.running + pendingLoad σ d t.pending + rest'.length ≤
      σ.config.engine.queueCapacity) : Room σ d t e rest' where
  load := hl
  targets := h.targets
  parallel := h.parallel
  above := by
    rw [hq]
    exact h.above
  edges := by
    rw [hq]
    exact h.edges
  startable := by
    rw [hq]
    exact h.startable
  pools := by
    intro mode hpooled hlow
    have hlow' : (∃ r ∈ s.modes, atLeast σ.config d r.1 = false ∧ r.2 = mode) ∨
        ∃ w ∈ s.pending, atLeast σ.config d w.processorId = false ∧ itemMode σ w = mode := by
      rcases hlow with ⟨r, hr, hd⟩ | ⟨w, hw, hd⟩
      · exact .inl ⟨r, hm.subset hr, hd⟩
      · exact .inr ⟨w, hq ▸ hw, hd⟩
    have hpool := h.pools mode hpooled hlow'
    have hcount := hm.countP_le (p := fun r => atLeast σ.config d r.1 && r.2 = mode)
    rw [hq]
    omega

/-- A start moves its item from the queue to the tasks. -/
theorem Room.start {input : ScheduleInput} {w : WorkItem} {p : ProcessorConfig}
    {key : Option String} {db : Option Database} {pending dropped : List WorkItem}
    (h : Room σ d s e rest) (hperm : (w :: pending ++ dropped).Perm s.pending)
    (hst : Startable σ input s w p key db) : Room σ d (s.start σ w p key db pending) e rest := by
  have hp := hst.definition
  have hcount : ∀ f : WorkItem → Bool, pending.countP f + (if f w then 1 else 0) ≤
      s.pending.countP f := by
    intro f
    have hc := hperm.countP_eq f
    rw [List.cons_append, List.countP_cons, List.countP_append] at hc
    omega
  have hsub : ∀ x ∈ pending, x ∈ s.pending := fun x hx =>
    hperm.subset (List.mem_cons_of_mem w (List.mem_append_left dropped hx))
  have hw : w ∈ s.pending := hperm.subset List.mem_cons_self
  have hmodes : (s.start σ w p key db pending).modes =
      s.modes ++ [(w.processorId, σ.modeOf p)] := by
    simp only [State.modes, State.start, List.map_append, taskOf]
    rfl
  constructor
  · have hl := h.load
    have hr : runningLoad σ d (s.running ++ [taskOf σ w p key]) =
        runningLoad σ d s.running + pendingLoad σ d [w] := by
      rw [runningLoad_append, load_taskOf hp]
    have hpl : pendingLoad σ d [w] + pendingLoad σ d pending ≤ pendingLoad σ d s.pending := by
      have happ := pendingLoad_append (σ := σ) (d := d) [w] (pending ++ dropped)
      have happ' := pendingLoad_append (σ := σ) (d := d) pending dropped
      have hperm' : ([w] ++ (pending ++ dropped)).Perm s.pending := hperm
      rw [← pendingLoad_perm hperm']
      omega
    simp only [State.start]
    omega
  · exact h.targets
  · exact h.parallel
  · have ha := h.above
    have hc := hcount fun w => !w.isSourceSeed && atLeast σ.config d w.processorId
    simp only [State.start]
    omega
  · intro k hk
    have he := h.edges k hk
    have hc := hcount fun w =>
      w.connection = some k.connectionId && atLeast σ.config d w.processorId
    simp only [State.start]
    omega
  · exact fun x hx => h.startable x (hsub x hx)
  · intro mode hpooled hlow
    have hmode : itemMode σ w = σ.modeOf p := by simp only [itemMode, hp]
    have hlow' : (∃ r ∈ s.modes, atLeast σ.config d r.1 = false ∧ r.2 = mode) ∨
        ∃ w ∈ s.pending, atLeast σ.config d w.processorId = false ∧ itemMode σ w = mode := by
      rcases hlow with ⟨r, hr, hd, hm⟩ | ⟨x, hx, hd⟩
      · rw [hmodes] at hr
        rcases List.mem_append.mp hr with hr | hr
        · exact .inl ⟨r, hr, hd, hm⟩
        · rw [List.mem_singleton.mp hr] at hd hm
          exact .inr ⟨w, hw, hd, hmode.trans hm⟩
      · exact .inr ⟨x, hsub x hx, hd⟩
    have hpool := h.pools mode hpooled hlow'
    have hc := hcount fun w => atLeast σ.config d w.processorId && itemMode σ w = mode
    rw [hmodes, List.countP_append, List.countP_singleton]
    simp only [hmode] at hc
    simp only [State.start]
    omega

/-! ### Work below -/

/-- Tasks and queued packets less than `d` stages above the end. -/
def Busy (σ : Setup) (d : ℕ) (s : State) : Prop :=
  (∃ x ∈ s.running, atLeast σ.config d x.processorId = false) ∨
    ∃ w ∈ s.pending, w.isSourceSeed = false ∧ atLeast σ.config d w.processorId = false

/-- Their number, with the seeds. -/
def work (σ : Setup) (d : ℕ) (s : State) : ℕ :=
  (s.running.countP fun x => !atLeast σ.config d x.processorId) +
    s.pending.countP fun w => !atLeast σ.config d w.processorId

/-- When the stages below are idle, the emission fits. -/
theorem Room.fits (h : Room σ d s e rest) (hc : Coherent σ s) (hidle : ¬ Busy σ d s) :
    fits σ.config s.pending s.active (σ.config.outgoing e.processorId e.relationship) = true := by
  have hrunning : ∀ x ∈ s.running, atLeast σ.config d x.processorId = true := by
    intro x hx
    by_contra hlow
    exact hidle (.inl ⟨x, hx, by simpa using hlow⟩)
  have hpending : ∀ w ∈ s.pending, w.isSourceSeed = false →
      atLeast σ.config d w.processorId = true := by
    intro w hw hseed
    by_contra hlow
    exact hidle (.inr ⟨w, hw, hseed, by simpa using hlow⟩)
  have hqueued : State.queued s.pending =
      s.pending.countP fun w => !w.isSourceSeed && atLeast σ.config d w.processorId := by
    refine List.countP_congr fun w hw => ?_
    cases hseed : w.isSourceSeed with
    | false => simp [hpending w hw hseed]
    | true => simp
  unfold Jaiba.Engine.fits
  rw [Bool.and_eq_true, decide_eq_true_eq, hqueued, List.all_eq_true]
  refine ⟨h.above, fun k hk => ?_⟩
  have hcount : (s.pending.countP fun w => w.connection = some k.connectionId) =
      s.pending.countP fun w =>
        w.connection = some k.connectionId && atLeast σ.config d w.processorId := by
    refine List.countP_congr fun w hw => ?_
    by_cases hk' : w.connection = some k.connectionId
    · have hseed : w.isSourceSeed = false := by simp [WorkItem.isSourceSeed, hk']
      simp [hk', hpending w hw hseed]
    · simp [hk']
  have hqueue : (s.pending.countP fun w => w.processorId = k.target) = 0 := by
    refine List.countP_eq_zero.mpr fun w hw heq => ?_
    have hid : w.processorId = k.target := by simpa using heq
    cases hseed : w.isSourceSeed with
    | false =>
      have hhigh := hpending w hw hseed
      rw [hid, h.targets k hk] at hhigh
      cases hhigh
    | true => exact hc.backlog.seeds w hw hseed k (List.mem_filter.mp hk).1 hid.symm
  have hactive : s.active k.target = 0 := by
    rw [hc.roster.active]
    refine List.countP_eq_zero.mpr fun r hr heq => ?_
    obtain ⟨x, hx, rfl⟩ := List.mem_map.mp hr
    have hhigh := hrunning x hx
    rw [show x.processorId = k.target by simpa using heq, h.targets k hk] at hhigh
    cases hhigh
  unfold edgeFits
  rw [Bool.and_eq_true, decide_eq_true_eq, hcount]
  refine ⟨h.edges k hk, ?_⟩
  split
  · rfl
  next maximum hmax =>
    obtain ⟨p, hp, hpm⟩ := Option.bind_eq_some_iff.mp hmax
    have hpar := h.parallel k hk p maximum hp hpm
    rw [decide_eq_true_eq, hqueue, hactive]
    omega

/-- An item of these stages starts as soon as none of their tasks runs. -/
theorem not_held (input : ScheduleInput) (backlog : ℕ) (hv : Valid σ.config) (hc : Coherent σ s)
    {w : WorkItem} (hlow : atLeast σ.config d w.processorId = false)
    (hseed : w.isSourceSeed = false)
    (hrunning : ∀ x ∈ s.running, atLeast σ.config d x.processorId = true) :
    s.running.length < σ.config.engine.maxConcurrency ∧
      decide? σ input backlog s w ≠ .skip := by
  have hdepth : depthOf σ.config w.processorId < d := by simpa [atLeast] using hlow
  have hslots : s.running.length + 1 + depthOf σ.config w.processorId ≤
      σ.config.engine.maxConcurrency := by
    have hall : s.roster.countP (fun r => atLeast σ.config d r.1) = s.running.length := by
      rw [State.roster, List.countP_map, List.countP_eq_length.mpr]
      intro x hx
      exact hrunning x hx
    have hslot := hc.roster.slots d
    have hvalid := hv.slots w.processorId
    rw [hall] at hslot
    rcases Nat.eq_zero_or_pos s.running.length with hz | hpos
    · omega
    · have hs := hslot hpos
      omega
  refine ⟨by omega, fun hskip => ?_⟩
  have hnone : ∀ key, (w.processorId, key) ∉ s.roster := by
    intro key hmem
    obtain ⟨x, hx, heq⟩ := List.mem_map.mp hmem
    have hhigh := hrunning x hx
    rw [(Prod.mk.inj heq).1, hlow] at hhigh
    cases hhigh
  rcases held_of_decide hskip with ⟨hs, _⟩ | hfull | ⟨p, hp, hlimit | ⟨key, hkey⟩⟩
  · rw [hseed] at hs
    cases hs
  · omega
  · have hpos : 0 < processorLimit p := by
      unfold processorLimit
      split
      · exact Nat.one_pos
      · exact hv.concurrentTasks p (FlowConfig.definition?_mem hp)
      · exact hv.concurrentTasks p (FlowConfig.definition?_mem hp)
    have hzero : s.active w.processorId = 0 := by
      rw [hc.roster.active]
      refine List.countP_eq_zero.mpr fun r hr heq => ?_
      have hid : r.1 = w.processorId := by simpa using heq
      exact hnone r.2 (hid ▸ hr)
    omega
  · exact hnone _ (hc.roster.partition _ _ hkey)

/-- The rows of the queue are not claimed elsewhere. -/
theorem not_dropped (hc : Coherent σ s) {input : ScheduleInput} {backlog : ℕ} {w : WorkItem}
    (hw : w ∈ s.pending) : decide? σ input backlog s w ≠ .drop := by
  intro hdrop
  obtain ⟨db, q, hdb, hq, hclaim⟩ := drop_of_decide hdrop
  rw [hc.backlog.claim hw hq hdb] at hclaim
  cases hclaim

/-- What a pass leaves: room, no more work below, and a task that works it off. -/
theorem Schedules.room {input : ScheduleInput} {backlog : ℕ} (hv : Valid σ.config)
    (hin : input.claimError = fun _ => none) (hs : Schedules σ input backlog s t)
    (hc : Coherent σ s) (h : Room σ d s e rest) :
    t.phase = .checking ∧ Room σ d t e rest ∧ work σ d t ≤ work σ d s ∧
      (Busy σ d s → ∃ x ∈ t.running, atLeast σ.config d x.processorId = false) := by
  induction hs with
  | @idle s pending dropped hperm hdrop hhalt =>
    have hsub : ∀ w ∈ pending, w ∈ s.pending := fun w hw =>
      hperm.subset (List.mem_append_left dropped hw)
    have hcount : ∀ f : WorkItem → Bool, pending.countP f ≤ s.pending.countP f := by
      intro f
      have hcf := hperm.countP_eq f
      rw [List.countP_append] at hcf
      omega
    have hload : pendingLoad σ d pending ≤ pendingLoad σ d s.pending := by
      rw [← pendingLoad_perm hperm, pendingLoad_append]
      omega
    refine ⟨rfl, ⟨?_, h.targets, h.parallel, ?_, fun k hk => ?_, fun w hw => h.startable w (hsub w hw),
      fun mode hpooled hlow => ?_⟩, ?_, ?_⟩
    · have hl := h.load
      simp only
      omega
    · have ha := h.above
      have hcf := hcount fun w => !w.isSourceSeed && atLeast σ.config d w.processorId
      simp only
      omega
    · have he := h.edges k hk
      have hcf := hcount fun w =>
        w.connection = some k.connectionId && atLeast σ.config d w.processorId
      simp only
      omega
    · have hpool := h.pools mode hpooled (hlow.imp_right fun ⟨w, hw, hd⟩ => ⟨w, hsub w hw, hd⟩)
      have hcf := hcount fun w => atLeast σ.config d w.processorId && itemMode σ w = mode
      have hmodes : (s.modes.countP fun r => atLeast σ.config d r.1 && r.2 = mode) +
          (pending.countP fun w => atLeast σ.config d w.processorId && itemMode σ w = mode) <
          σ.pool mode := by omega
      exact hmodes
    · have hcf := hcount fun w => !atLeast σ.config d w.processorId
      simp only [work]
      omega
    · -- an item below that is left in the queue would have been started
      rintro (hrun | ⟨w, hw, hseed, hlow⟩)
      · exact hrun
      · by_contra hidle
        have hrunning : ∀ x ∈ s.running, atLeast σ.config d x.processorId = true := by
          intro x hx
          by_contra hx'
          exact hidle ⟨x, hx, by simpa using hx'⟩
        obtain ⟨hfree, hskip⟩ := not_held input backlog hv hc hlow hseed hrunning
        rcases List.mem_append.mp (hperm.symm.subset hw) with hw' | hw'
        · rcases hhalt with hfull | hall
          · omega
          · exact hskip (hall w hw')
        · exact not_dropped hc hw (hdrop w hw')
  | @start s t w p key db pending dropped hperm hdrop hst _ ih =>
    obtain ⟨hphase, hroom, hwork, hbusy⟩ := ih (hc.start hperm hst) (h.start hperm hst)
    refine ⟨hphase, hroom, Nat.le_trans hwork ?_, fun hb => hbusy ?_⟩
    · have hcf := hperm.countP_eq fun w => !atLeast σ.config d w.processorId
      rw [List.cons_append, List.countP_cons, List.countP_append] at hcf
      simp only [work, State.start, List.countP_append, List.countP_singleton, taskOf]
      omega
    · rcases hb with ⟨x, hx, hlow⟩ | ⟨x, hx, hseed, hlow⟩
      · exact .inl ⟨x, List.mem_append_left _ hx, hlow⟩
      · rcases List.mem_cons.mp (hperm.symm.subset hx) with rfl | hx'
        · exact .inl ⟨taskOf σ x p key, List.mem_append_right _ List.mem_cons_self, hlow⟩
        · rcases List.mem_append.mp hx' with hx' | hx'
          · exact .inr ⟨x, hx', hseed, hlow⟩
          · exact absurd (hdrop x hx') (not_dropped hc hx)
  | @stop s w exit hw hstop =>
    obtain ⟨p, key, hp, hkey⟩ := h.startable w hw
    rcases stop_of_decide hstop with hnone | ⟨p', e', hp', he'⟩ | ⟨q, e', _, he'⟩
    · rw [hp] at hnone
      cases hnone
    · rw [hp] at hp'
      cases hp'
      rw [hkey] at he'
      cases he'
    · rw [hin] at he'
      cases he'

end room

/-! ### One round of the loop -/

theorem Continues.undisturbed (hf : FitsMemory σ) (h : Continues σ s t) (hs : Undisturbed σ s)
    (ht : t.Live) : Undisturbed σ t := by
  refine Continues.invariant h hs (fun u a v hu ha hv => ?_) ht
  have hg : Granted u a := by
    cases a <;> first | exact ha | trivial
  exact step_undisturbed hf hu hg hv

/-- A state of a running flow from which the emission can be reached. -/
structure Ready (σ : Setup) (d : ℕ) (e : ProcessorEmission) (rest : List ProcessorEmission)
    (s : State) : Prop where
  control : s.control = .running
  coherent : Coherent σ s
  undisturbed : Undisturbed σ s
  waiting : s.waiting = e :: rest
  room : Room σ d s e rest

section ready
variable {d : ℕ} {e : ProcessorEmission} {rest : List ProcessorEmission}

theorem Ready.channel (h : Ready σ d e rest s) (hd : s.deferred = some e) : s.channel = rest := by
  have hw := h.waiting
  rw [State.waiting, hd] at hw
  exact (List.cons.inj hw).2

/-- The head of the loop routes the deferred emission, or finds work below. -/
theorem Ready.head (h : Ready σ d e rest s) (hp : s.phase = .head) (hd : s.deferred = some e) :
    ∃ t, Continues σ s t ∧ (t.trace.routed = s.trace.routed ++ [e] ∨
      (Ready σ d e rest t ∧ t.phase = .scheduling ∧ t.deferred = some e ∧
        t.trace.routed = s.trace.routed ∧ work σ d t = work σ d s)) := by
  obtain ⟨input, hm, hattempt⟩ := exists_attempt σ { s with deferred := none } e .scheduling
  have hstep := step_head (σ := σ) input hp
  rw [loopHead_attempt (.inr h.control) hd] at hstep
  refine ⟨_, .one (.head input) hm hstep, ?_⟩
  rcases hattempt with ⟨u, hpub, heq⟩ | ⟨hfits, heq⟩ <;> rw [heq]
  · left
    rw [hpub.frame]
    rfl
  · right
    have hw : e :: s.channel = e :: rest := by
      rw [h.channel hd]
    exact ⟨⟨h.control, ⟨h.coherent.roster, h.coherent.backlog, h.coherent.channel,
      h.coherent.permits⟩, ⟨rfl, h.undisturbed.outcome, fun _ e' he' => by cases he'; exact hfits⟩,
      hw, h.room.frame rfl (List.Sublist.refl _) h.room.load⟩, rfl, rfl, rfl, rfl⟩

/-- A pass starts what waits below. -/
theorem Ready.pass (hv : Valid σ.config) (hf : FitsMemory σ) (h : Ready σ d e rest s)
    (hp : s.phase = .scheduling) :
    ∃ t, Continues σ s t ∧ Ready σ d e rest t ∧ t.phase = .checking ∧ t.deferred = s.deferred ∧
      t.channel = s.channel ∧ t.trace = s.trace ∧ work σ d t ≤ work σ d s ∧
      (Busy σ d s → ∃ x ∈ t.running, atLeast σ.config d x.processorId = false) := by
  have hsch := scheduleAvailable_schedules (σ := σ) ⟨0, fun _ => none⟩ h.control
  have hstep := step_schedule (σ := σ) ⟨0, fun _ => none⟩ hp
  generalize scheduleAvailable σ ⟨0, fun _ => none⟩ s = t at hsch hstep
  have hpath : Continues σ s t := .one (.schedule ⟨0, fun _ => none⟩) rfl hstep
  obtain ⟨hphase, hroom, hwork, hbusy⟩ := hsch.room hv rfl h.coherent h.room
  have hlive : t.Live := live_of_phase hphase (by simp)
  have hframe := hsch.frame
  have hcontrol : t.control = s.control := by rw [hframe]
  have hdeferred : t.deferred = s.deferred := by rw [hframe]
  have hchannel : t.channel = s.channel := by rw [hframe]
  have htrace : t.trace = s.trace := by rw [hframe]
  have hwaiting : t.waiting = e :: rest := by
    rw [State.waiting, hdeferred, hchannel]
    exact h.waiting
  exact ⟨t, hpath, ⟨hcontrol.trans h.control, hpath.coherent h.coherent hlive,
    hpath.undisturbed hf h.undisturbed hlive, hwaiting, hroom⟩, hphase, hdeferred, hchannel, htrace,
    hwork, hbusy⟩

/-- The exit test passes on to the `select!`. -/
theorem Ready.check (h : Ready σ d e rest s) (hp : s.phase = .checking)
    (hwork : s.pending ≠ [] ∨ s.running ≠ [] ∨ s.deferred ≠ none) :
    Continues σ s { s with phase := .selecting } ∧
      Ready σ d e rest { s with phase := .selecting } := by
  have hstep := step_check (σ := σ) hp
  rw [exitTest_select h.undisturbed.stall hwork] at hstep
  exact ⟨.one .check trivial hstep, h.control, ⟨h.coherent.roster, h.coherent.backlog,
    h.coherent.channel, h.coherent.permits⟩, ⟨h.undisturbed.stall, h.undisturbed.outcome,
    fun hp' => by cases hp'⟩, h.waiting, h.room.frame rfl (List.Sublist.refl _) h.room.load⟩

theorem modes_set {i : ℕ} {x y : Task} (hx : s.running[i]? = some x)
    (hr : t.running = s.running.set i y) (hid : y.processorId = x.processorId)
    (hm : y.mode = x.mode) : t.modes = s.modes := by
  rw [State.modes, hr]
  exact map_set_of_eq _ hx (by rw [hid, hm])

theorem work_set {i : ℕ} {x y : Task} (hx : s.running[i]? = some x)
    (hr : t.running = s.running.set i y) (hid : y.processorId = x.processorId)
    (hq : t.pending = s.pending) : work σ d t = work σ d s := by
  have hmap : t.running.map Task.processorId = s.running.map Task.processorId := by
    rw [hr]
    exact map_set_of_eq _ hx hid
  have hcount : ∀ l : List Task, (l.countP fun x => !atLeast σ.config d x.processorId) =
      (l.map Task.processorId).countP fun id => !atLeast σ.config d id := by
    intro l
    rw [List.countP_map]
    rfl
  rw [work, work, hq, hcount, hcount, hmap]

/-- Where tasks run below, one of them holds its permit or gets it. -/
theorem Ready.permit (hf : FitsMemory σ) (h : Ready σ d e rest s) (hp : s.phase = .selecting)
    (hlow : ∃ x ∈ s.running, atLeast σ.config d x.processorId = false) :
    ∃ (t : State) (i : ℕ) (x : Task), Continues σ s t ∧ Ready σ d e rest t ∧
      t.phase = .selecting ∧ t.deferred = s.deferred ∧ t.trace = s.trace ∧ work σ d t = work σ d s ∧
      t.running[i]? = some x ∧ atLeast σ.config d x.processorId = false ∧ x.permit = true := by
  by_cases hheld : ∃ x ∈ s.running, atLeast σ.config d x.processorId = false ∧ x.permit = true
  · obtain ⟨x, hx, hd, hpermit⟩ := hheld
    obtain ⟨i, hi⟩ := List.mem_iff_getElem?.mp hx
    exact ⟨s, i, x, .refl s, h, hp, rfl, rfl, rfl, hi, hd, hpermit⟩
  · obtain ⟨x, hx, hd⟩ := hlow
    have hpermit : x.permit = false := by
      by_contra hne
      exact hheld ⟨x, hx, hd, by simpa using hne⟩
    have hpooled := h.coherent.permits x hx hpermit
    -- only tasks at `d` or above hold permits of the pool
    have hholders : s.running.countP (Task.holds x.mode) ≤
        s.modes.countP fun r => atLeast σ.config d r.1 && r.2 = x.mode := by
      rw [State.modes, List.countP_map]
      refine List.countP_mono_left fun y hy hh => ?_
      simp only [Task.holds, Bool.and_eq_true, decide_eq_true_eq] at hh
      have hhigh : atLeast σ.config d y.processorId = true := by
        by_contra hlow'
        exact hheld ⟨y, hy, by simpa using hlow', hh.1.2⟩
      simp [hhigh, hh.1.1.2]
    have hpool := h.room.pools x.mode hpooled
      (.inl ⟨(x.processorId, x.mode), List.mem_map_of_mem (f := fun x : Task =>
        (x.processorId, x.mode)) hx, hd, rfl⟩)
    have hfree : 0 < s.freePermits σ x.mode := by
      unfold State.freePermits
      omega
    obtain ⟨i, hi⟩ := List.mem_iff_getElem?.mp hx
    have hlive : s.Live := live_of_phase hp (by simp)
    have hstep := step_acquire hlive hi hpermit hfree
    have hpath : Continues σ s _ := .one (.acquire i) trivial hstep
    refine ⟨_, i, { x with permit := true }, hpath, ⟨h.control, hpath.coherent h.coherent hlive,
      hpath.undisturbed hf h.undisturbed hlive, h.waiting, ?_⟩, hp, rfl, rfl,
      work_set hi rfl rfl rfl, ?_, hd, rfl⟩
    · have hset := runningLoad_set (σ := σ) (d := d) (y := { x with permit := true }) hi
      have hsame : runningLoad σ d [{ x with permit := true }] = runningLoad σ d [x] := rfl
      have hl := h.room.load
      have hmodes := modes_set
        (t := { s with running := s.running.set i { x with permit := true } }) hi rfl rfl rfl
      refine h.room.frame rfl (by rw [hmodes]) ?_
      simp only
      omega
    · exact List.getElem?_set_self (List.getElem?_eq_some_iff.mp hi).1

theorem runningLoad_high {x : Task} (h : atLeast σ.config d x.processorId = true) :
    runningLoad σ d [x] = 0 := by
  simp [runningLoad, h]

theorem runningLoad_low {x : Task} (h : atLeast σ.config d x.processorId = false) :
    runningLoad σ d [x] = (remaining σ x).length := by
  simp [runningLoad, h]

theorem runningLoad_exhausted (x : Task) : runningLoad σ d [x.exhausted] = 0 := by
  have hnil : remaining σ x.exhausted = [] := rfl
  simp [runningLoad, hnil]

/-- A task whose emissions fit in the channel runs to its end and is joined. -/
theorem Ready.finish (hf : FitsMemory σ) (h : Ready σ d e rest s) (hp : s.phase = .selecting)
    (hd : s.deferred = some e) {i : ℕ} {x : Task} (hx : s.running[i]? = some x)
    (hpermit : x.permit = true)
    (hfit : atLeast σ.config d x.processorId = false ∨
      runningLoad σ d s.running + pendingLoad σ d s.pending + (remaining σ x).length +
        rest.length ≤ σ.config.engine.queueCapacity) :
    ∃ t rest', Continues σ s t ∧ Ready σ d e rest' t ∧ t.phase = .head ∧ t.deferred = some e ∧
      t.trace.routed = s.trace.routed ∧ work σ d t ≤ work σ d s ∧
      (atLeast σ.config d x.processorId = false → work σ d t < work σ d s) := by
  have hload := h.room.load
  have hchan := h.channel hd
  have herase := runningLoad_erase (σ := σ) (d := d) hx
  have hplaces : s.channel.length + (remaining σ x).length ≤ σ.config.engine.queueCapacity := by
    rw [hchan]
    rcases hfit with hlow | hfit
    · rw [runningLoad_low hlow] at herase
      omega
    · omega
  have hlive : s.Live := live_of_phase hp (by simp)
  obtain ⟨u, new, hpath, hnew, hu⟩ := run_task hlive hx hpermit hplaces
  have hlen : new.length = (remaining σ x).length := by
    have hmap := congrArg List.length hnew
    simpa only [List.length_map] using hmap
  have hurun : u.running = s.running.set i x.exhausted := by rw [hu]
  have huq : u.pending = s.pending := by rw [hu]
  have huphase : u.phase = .selecting := by rw [hu]; exact hp
  have hget : u.running[i]? = some x.exhausted := by
    rw [hurun]
    exact List.getElem?_set_self (List.getElem?_eq_some_iff.mp hx).1
  have hfin : x.exhausted.finished = true := by
    simp only [Task.finished, Task.exhausted, hpermit]
    rfl
  have hstep := step_join (σ := σ) 0 huphase hget hfin
  have hulive : u.Live := live_of_phase huphase (by simp)
  have hudist := Continues.undisturbed hf hpath h.undisturbed hulive
  obtain ⟨failure, hout⟩ := hudist.outcome _ (List.mem_of_getElem? hget)
  obtain ⟨hthead, _, htcontrol, htq, htd, htc⟩ := complete_ok (s := u) (i := i) 0 hout
  obtain ⟨httrace, _, _, htrun⟩ := complete_frame u i x.exhausted 0
  generalize u.complete i x.exhausted 0 = t at hstep hthead htcontrol htq htd htc httrace htrun
  have hpath' : Continues σ s t := hpath.trans (.one (.join i 0) trivial hstep)
  have htlive : t.Live := live_of_phase hthead (by simp)
  have hmodes : t.modes.Sublist s.modes := by
    rw [← modes_set (t := u) hx hurun rfl rfl, State.modes, State.modes, htrun]
    exact (List.eraseIdx_sublist u.running i).map _
  have huload := runningLoad_set (σ := σ) (d := d) (y := x.exhausted) hx
  have htload := runningLoad_erase (σ := σ) (d := d) hget
  rw [runningLoad_exhausted] at huload htload
  rw [hurun] at htload
  have hchannel : t.channel = rest ++ new := by rw [htc, hu, ← hchan]
  have hdeferred : t.deferred = some e := by rw [htd, hu]; exact hd
  have hpend : t.pending = s.pending := htq.trans huq
  refine ⟨t, rest ++ new, hpath', ⟨?_, hpath'.coherent h.coherent htlive,
    Continues.undisturbed hf hpath' h.undisturbed htlive, ?_, h.room.frame hpend hmodes ?_⟩,
    hthead, hdeferred, ?_, ?_, ?_⟩
  · rw [htcontrol, hu]
    exact h.control
  · rw [State.waiting, hdeferred, hchannel]
    rfl
  · rw [hpend, htrun, hurun, List.length_append, hlen]
    rcases Bool.eq_false_or_eq_true (atLeast σ.config d x.processorId) with hhigh | hlow
    · have hfit' := hfit.resolve_left (by simp [hhigh])
      rw [runningLoad_high hhigh] at huload
      omega
    · rw [runningLoad_low hlow] at huload
      omega
  · rw [httrace, hu]
  all_goals
    have hw := work_set (σ := σ) (d := d) (t := u) hx hurun rfl huq
    have hperm := (List.getElem_cons_eraseIdx_perm (List.getElem?_eq_some_iff.mp hget).1).countP_eq
      fun x => !atLeast σ.config d x.processorId
    rw [(List.getElem?_eq_some_iff.mp hget).2, List.countP_cons] at hperm
    simp only [work] at hw ⊢
    rw [htq, htrun]
  · omega
  · intro hlow
    have hone : (if (!atLeast σ.config d x.exhausted.processorId) = true then 1 else 0) = 1 := by
      simp [Task.exhausted, hlow]
    omega

/-- A round that starts with a pass ends with a task of the stages below joined. -/
theorem Ready.round (hv : Valid σ.config) (hf : FitsMemory σ) (h : Ready σ d e rest s)
    (hp : s.phase = .scheduling) (hd : s.deferred = some e) :
    ∃ t rest', Continues σ s t ∧ Ready σ d e rest' t ∧ t.phase = .head ∧ t.deferred = some e ∧
      t.trace.routed = s.trace.routed ∧ work σ d t < work σ d s := by
  have hbusy : Busy σ d s := by
    by_contra hidle
    have hfits := h.room.fits h.coherent hidle
    rw [h.undisturbed.tried hp e hd] at hfits
    cases hfits
  obtain ⟨b, hb, hrb, hpb, hdb, _, htb, hwb, hlow⟩ := h.pass hv hf hp
  obtain ⟨hc, hrc⟩ := hrb.check hpb (.inr (.inr (by rw [hdb, hd]; simp)))
  obtain ⟨c, i, x, hc', hrc', hpc, hdc, htc, hwc, hx, hxlow, hxpermit⟩ :=
    hrc.permit hf rfl (hlow hbusy)
  have hdc' : c.deferred = some e := hdc.trans (hdb.trans hd)
  obtain ⟨t, rest', ht, hrt, hpt, hdt, htt, _, hlt⟩ :=
    hrc'.finish hf hpc hdc' hx hxpermit (.inl hxlow)
  have hwc' : work σ d c = work σ d b := hwc
  have hless := hlt hxlow
  refine ⟨t, rest', ((hb.trans hc).trans hc').trans ht, hrt, hpt, hdt, ?_, by omega⟩
  rw [htt, htc]
  simp only [htb]

/-- Round after round the stages below work off what they hold, until the
emission is routed. -/
theorem Ready.routed (hv : Valid σ.config) (hf : FitsMemory σ) (h : Ready σ d e rest s)
    (hp : s.phase = .head) (hd : s.deferred = some e) :
    ∃ t, Continues σ s t ∧ t.trace.routed = s.trace.routed ++ [e] := by
  generalize hn : work σ d s = n
  induction n using Nat.strongRecOn generalizing s rest with
  | ind n ih =>
    obtain ⟨a, ha, hrouted | ⟨hra, hpa, hda, hta, hwa⟩⟩ := h.head hp hd
    · exact ⟨a, ha, hrouted⟩
    · obtain ⟨t, rest', ht, hrt, hpt, hdt, htt, hlt⟩ := hra.round hv hf hpa hda
      obtain ⟨u, hu, huu⟩ := ih (work σ d t) (by omega) hrt hpt hdt rfl
      exact ⟨u, (ha.trans ht).trans hu, by rw [huu, htt, hta]⟩

/-- Only the phase changes, and not to the one after an attempt. -/
theorem Ready.goto (h : Ready σ d e rest s) {p : Phase} (hp : p = .scheduling → s.deferred = none) :
    Ready σ d e rest { s with phase := p } where
  control := h.control
  coherent := ⟨h.coherent.roster, h.coherent.backlog, h.coherent.channel, h.coherent.permits⟩
  undisturbed := by
    refine ⟨h.undisturbed.stall, h.undisturbed.outcome, fun hp' x hx => ?_⟩
    rw [show s.deferred = some x from hx] at hp
    cases hp hp'
  waiting := h.waiting
  room := h.room.frame rfl (List.Sublist.refl _) h.room.load

/-- From the `select!` the loop gets back to its head if something wakes it. -/
theorem Ready.wake (hf : FitsMemory σ) (h : Ready σ d e rest s) (hp : s.phase = .selecting)
    (hd : s.deferred = some e) (hawake : Awake σ d s rest) :
    ∃ t rest', Continues σ s t ∧ Ready σ d e rest' t ∧ t.phase = .head ∧ t.deferred = some e ∧
      t.trace.routed = s.trace.routed := by
  rcases hawake (.inr hp) (by rw [hd]; rfl) with hdomain | ⟨i, x, hx, hlow | ⟨hpermit, hfit⟩⟩
  · have hstep : step σ s .maintain = some { s with phase := .head } := by
      simp only [step, hp, hdomain, if_true]
    exact ⟨_, rest, .one .maintain trivial hstep, h.goto (by simp), rfl, hd, rfl⟩
  · obtain ⟨c, j, y, hc, hrc, hpc, hdc, htc, _, hy, hylow, hypermit⟩ :=
      h.permit hf hp ⟨x, List.mem_of_getElem? hx, hlow⟩
    obtain ⟨t, rest', ht, hrt, hpt, hdt, htt, _⟩ :=
      hrc.finish hf hpc (hdc.trans hd) hy hypermit (.inl hylow)
    exact ⟨t, rest', hc.trans ht, hrt, hpt, hdt, by rw [htt, htc]⟩
  · obtain ⟨t, rest', ht, hrt, hpt, hdt, htt, _⟩ := h.finish hf hp hd hx hpermit (.inr hfit)
    exact ⟨t, rest', ht, hrt, hpt, hdt, htt⟩

/-- An emission at the head of the channel is received and routed, or deferred. -/
theorem Ready.receive (h : Ready σ d e rest s) (hp : s.phase = .selecting)
    (hd : s.deferred = none) : ∃ t, Continues σ s t ∧
      (t.trace.routed = s.trace.routed ++ [e] ∨
        (Ready σ d e rest t ∧ t.phase = .head ∧ t.deferred = some e ∧
          t.trace.routed = s.trace.routed)) := by
  have hchan : s.channel = e :: rest := by
    have hw := h.waiting
    rw [State.waiting, hd] at hw
    exact hw
  obtain ⟨input, hm, hattempt⟩ := exists_attempt σ { s with channel := rest } e .head
  have hstep := step_receive (σ := σ) input hp hd hchan
  refine ⟨_, .one (.receive input) hm hstep, ?_⟩
  rcases hattempt with ⟨u, hpub, heq⟩ | ⟨_, heq⟩ <;> rw [heq]
  · left
    rw [hpub.frame]
    rfl
  · right
    have hlen := h.coherent.channel
    rw [hchan, List.length_cons] at hlen
    exact ⟨⟨h.control, ⟨h.coherent.roster, h.coherent.backlog, Nat.le_of_succ_le hlen,
      h.coherent.permits⟩, ⟨rfl, h.undisturbed.outcome, fun hp' => by cases hp'⟩, rfl,
      h.room.frame rfl (List.Sublist.refl _) h.room.load⟩, rfl, rfl, rfl⟩

/-- With nothing deferred, the oldest emission in the channel is routed or
deferred before the loop is at its head again. -/
theorem Ready.arrive (hv : Valid σ.config) (hf : FitsMemory σ) (h : Ready σ d e rest s)
    (hlive : s.Live) (hd : s.deferred = none) : ∃ t, Continues σ s t ∧
      (t.trace.routed = s.trace.routed ++ [e] ∨
        (Ready σ d e rest t ∧ t.phase = .head ∧ t.deferred = some e ∧
          t.trace.routed = s.trace.routed)) := by
  have hselect : ∀ u : State, Ready σ d e rest u → u.phase = .checking → u.deferred = none →
      ∃ t, Continues σ u t ∧ (t.trace.routed = u.trace.routed ++ [e] ∨
        (Ready σ d e rest t ∧ t.phase = .head ∧ t.deferred = some e ∧
          t.trace.routed = u.trace.routed)) := by
    intro u hu hp hdu
    by_cases hidle : u.pending = [] ∧ u.running = []
    · -- the last emissions of a flow without work left
      have hchan : u.channel = e :: rest := by
        have hw := hu.waiting
        rw [State.waiting, hdu] at hw
        exact hw
      have hstep : step σ u .check =
          some { u with deferred := some e, channel := rest, phase := .head } := by
        rw [step_check hp, State.exitTest]
        simp [hidle.1, hidle.2, hdu, hchan]
      have hlen := hu.coherent.channel
      rw [hchan, List.length_cons] at hlen
      exact ⟨_, .one .check trivial hstep, .inr ⟨⟨hu.control, ⟨hu.coherent.roster,
        hu.coherent.backlog, Nat.le_of_succ_le hlen, hu.coherent.permits⟩,
        ⟨hu.undisturbed.stall, hu.undisturbed.outcome, fun hp' => by cases hp'⟩, rfl,
        hu.room.frame rfl (List.Sublist.refl _) hu.room.load⟩, rfl, rfl, rfl⟩⟩
    · have hwork : u.pending ≠ [] ∨ u.running ≠ [] ∨ u.deferred ≠ none := by
        by_contra hno
        simp only [not_or, not_not] at hno
        exact hidle ⟨hno.1, hno.2.1⟩
      obtain ⟨hc, hrc⟩ := hu.check hp hwork
      obtain ⟨t, ht, hres⟩ := hrc.receive rfl hdu
      exact ⟨t, hc.trans ht, hres⟩
  have hpass : ∀ u : State, Ready σ d e rest u → u.phase = .scheduling → u.deferred = none →
      ∃ t, Continues σ u t ∧ (t.trace.routed = u.trace.routed ++ [e] ∨
        (Ready σ d e rest t ∧ t.phase = .head ∧ t.deferred = some e ∧
          t.trace.routed = u.trace.routed)) := by
    intro u hu hp hdu
    obtain ⟨b, hb, hrb, hpb, hdb, _, htb, _⟩ := hu.pass hv hf hp
    obtain ⟨t, ht, hres⟩ := hselect b hrb hpb (hdb.trans hdu)
    rw [htb] at hres
    exact ⟨t, hb.trans ht, hres⟩
  cases hp : s.phase with
  | head =>
    have hstep := step_head (σ := σ) ⟨none, [], none, 0, .channelClosed⟩ hp
    rw [loopHead_resume (.inr h.control) hd] at hstep
    have hresume : Continues σ s { s with phase := .scheduling } :=
      .one (.head ⟨none, [], none, 0, .channelClosed⟩) rfl hstep
    obtain ⟨t, ht, hres⟩ := hpass _ (h.goto fun _ => hd) rfl hd
    exact ⟨t, hresume.trans ht, hres⟩
  | scheduling => exact hpass s h hp hd
  | checking => exact hselect s h hp hd
  | selecting => exact h.receive hp hd
  | ended exit => exact absurd hp (hlive exit)

end ready

/-! ### Reachable states -/

theorem start_undisturbed {l : Launch} (h : start σ l = .ok s) : Undisturbed σ s := by
  have hinit : ∀ recovered db, Undisturbed σ (.init σ l.packetId recovered db) :=
    fun recovered db => ⟨rfl, by simp [State.init], by simp [State.init]⟩
  unfold start at h
  split at h
  · split at h
    · cases h
    · cases h
      exact hinit _ _
  · cases h
    exact hinit _ _

/-- `a` emits three packets for `b`, which emits nothing. -/
def threeSetup : Setup where
  config := pairFlow
  codec := exampleCodec
  execute := fun _ id packet =>
    ⟨List.replicate (if id = "a" then 3 else 0) ("success", packet), .ok ()⟩
  processorMode := fun _ => .asyncIo
  pool := fun _ => 1

/-- `b` runs on the first packet, the second is queued and the third deferred. -/
def threeTrace : List Action :=
  round 21 ++ [.emit 0, .receive (grantedAt 22 ["q-1"])] ++ round 23 ++
    [.emit 0, .receive (grantedAt 24 ["q-2"])] ++ round 25 ++ [.emit 0, .receive (grantedAt 26 [])]

/-- Two hops: `a` emits five packets, `b` forwards each to `c`. -/
def hopFlow : FlowConfig :=
  exampleFlow 1 3 [exampleProcessor "a", exampleProcessor "b", exampleProcessor "c"]
    [exampleConnection "a" "b", exampleConnection "b" "c"]

def hopSetup : Setup where
  config := hopFlow
  codec := exampleCodec
  execute := fun _ id packet => ⟨List.replicate (if id = "a" then 5 else if id = "b" then 1 else 0)
    ("success", packet), .ok ()⟩
  processorMode := fun _ => .asyncIo
  pool := fun _ => 1

/-- `b` has started on the first packet and waits; the second is queued, the third
deferred, the fourth in the channel, and `a` waits with the fifth. -/
def hopTrace : List Action :=
  round 21 ++ [.emit 0, .receive (grantedAt 22 ["q-1"])] ++ round 23 ++
    [.emit 0, .receive (grantedAt 24 ["q-2"])] ++ round 25 ++
    [.emit 0, .receive (grantedAt 26 [])] ++ round 27 ++ [.emit 0]

end Jaiba.Engine
