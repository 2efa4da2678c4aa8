import Jaiba.Error
import Jaiba.Graph

/-!
# Validation of a manifest (`engine/executor/validation.rs`)

Downstream depths, the checks of `validate` in their order, and what
`FlowEngine::new` accepts.
-/

namespace Jaiba.Engine

/-- Memo of `processor_downstream_depths`. -/
abbrev Depths := List (String × ℕ)

/-- `visit`: longest path to an end of the graph, with a memo and the ids on the
stack. A path on the stack has at most one id for each connection, so one call
more than there are connections is never nested. -/
def visit (connections : List ConnectionConfig) : ℕ → List String → String → Depths → ℕ × Depths
  | 0, _, _, memo => (0, memo)
  | calls + 1, visiting, processor, memo =>
    match memo.lookup processor with
    | some depth => (depth, memo)
    | none =>
      if processor ∈ visiting then (0, memo)
      else
        let r := (connections.filter fun k => k.source = processor).foldl
          (fun acc k =>
            let v := visit connections calls (processor :: visiting) k.target acc.2
            (max acc.1 (1 + v.1), v.2))
          (0, memo)
        (r.1, (processor, r.1) :: r.2)

def processorDownstreamDepths (config : FlowConfig) : Depths :=
  config.processors.foldl
    (fun depths p => (visit config.connections (config.connections.length + 1) [] p.id depths).2) []

/-- `downstream_depths.get(id).copied().unwrap_or_default()`. -/
def depthOf (config : FlowConfig) (id : String) : ℕ :=
  ((processorDownstreamDepths config).lookup id).getD 0

/-- `char::is_whitespace`. -/
def isWhitespace (c : Char) : Bool :=
  let n := c.toNat
  (9 ≤ n && n ≤ 13) || n = 0x20 || n = 0x85 || n = 0xA0 || n = 0x1680 ||
    (0x2000 ≤ n && n ≤ 0x200A) || n = 0x2028 || n = 0x2029 || n = 0x202F || n = 0x205F ||
    n = 0x3000

/-- Largest number of connections that leave a processor by one relationship. -/
def maxFanout (connections : List ConnectionConfig) : Option ℕ :=
  (connections.map fun k => connections.countP fun j =>
    j.source = k.source && j.relationship = k.relationship).max?

/-- The checks on one processor, `seen` being the ids before it. -/
def validateProcessor (seen : List String) (p : ProcessorConfig) : Except FlowError Unit :=
  let name := "processor '" ++ p.id ++ "'"
  if p.mode ≠ .real then
    .error (.configuration (name ++ " uses " ++ p.mode.debug ++
      " data mode; execute it through jaiba-simulator"))
  else if p.scheduling.concurrentTasks = 0 then
    .error (.configuration (name ++ " must allow at least one concurrent task"))
  else if p.scheduling.maximumInFlight = some 0 then
    .error (.configuration (name ++ " maximum_in_flight must be greater than zero"))
  else if p.scheduling.maximumInFlight.any fun maximum => maximum < p.scheduling.concurrentTasks then
    .error (.configuration (name ++ " maximum_in_flight cannot be lower than concurrent_tasks"))
  else if p.scheduling.ordering = .partitioned && (p.scheduling.partitionBy.all fun s => s = "") then
    .error (.configuration (name ++ " uses partitioned ordering but has no partition_by selector"))
  else if p.id ∈ seen then
    .error (.configuration ("duplicate processor id '" ++ p.id ++ "'"))
  else .ok ()

def validateProcessors (seen : List String) : List ProcessorConfig → Except FlowError Unit
  | [] => .ok ()
  | p :: ps =>
    match validateProcessor seen p with
    | .error e => .error e
    | .ok _ => validateProcessors (p.id :: seen) ps

def validateConnection (ids : List String) (k : ConnectionConfig) : Except FlowError Unit :=
  if k.capacity = 0 then
    .error (.configuration "connection queue capacity must be greater than zero")
  else if k.source ∉ ids || k.target ∉ ids then
    .error (.configuration ("connection '" ++ k.source ++ " -> " ++ k.target ++
      "' references an unknown processor"))
  else .ok ()

def validateConnections (ids : List String) : List ConnectionConfig → Except FlowError Unit
  | [] => .ok ()
  | k :: ks =>
    match validateConnection ids k with
    | .error e => .error e
    | .ok _ => validateConnections ids ks

/-- Slots that the longest streaming path needs. -/
def requiredPipelineSlots (config : FlowConfig) : ℕ :=
  ((processorDownstreamDepths config).map Prod.snd).max?.getD 0 + 1

def validate (config : FlowConfig) : Except FlowError Unit :=
  let engine := config.engine
  if config.processors.isEmpty then
    .error (.configuration "the flow must contain at least one processor")
  else if engine.queueCapacity = 0 || engine.maxConcurrency = 0 then
    .error (.configuration "engine capacities must be greater than zero")
  else if (maxFanout config.connections).any fun fanout => engine.queueCapacity < fanout then
    .error (.configuration ("engine.queue_capacity (" ++ toString engine.queueCapacity ++
      ") must be at least the maximum fan-out per relationship (" ++
      toString ((maxFanout config.connections).getD 0) ++ ")"))
  else if engine.drainTimeoutSeconds = 0 then
    .error (.configuration "shutdown drain_timeout_seconds must be greater than zero")
  else if engine.admin.maxRequestBodyBytes = 0 then
    .error (.configuration "admin max_request_body_bytes must be greater than zero")
  else if engine.admin.enabled && engine.admin.authentication = .bearer &&
      engine.admin.tokenEnv.toList.all isWhitespace then
    .error (.configuration
      "admin token_env cannot be empty when the administrative API is enabled")
  else if 1024 < engine.workers.cpuThreads || 1024 < engine.workers.blockingThreads then
    .error (.configuration "worker thread limits cannot exceed 1024")
  else
    match validateProcessors [] config.processors with
    | .error e => .error e
    | .ok _ =>
      match validateConnections (config.processors.map ProcessorConfig.id) config.connections with
      | .error e => .error e
      | .ok _ =>
        if config.processors.all fun p => config.connections.any fun k => k.target = p.id then
          .error (.configuration "the flow has no starting processor; check for cycles")
        else if engine.maxConcurrency < requiredPipelineSlots config then
          .error (.configuration ("engine max_concurrency must be at least " ++
            toString (requiredPipelineSlots config) ++ " for the longest streaming path"))
        else .ok ()

/-- `FlowEngine::new` on a manifest whose parameters are resolved. -/
def create (hash : HashOrder) (config : FlowConfig) : Except FlowError FlowConfig :=
  match FlowGraph.build hash config with
  | .error e => .error (.configuration e.text)
  | .ok _ =>
    match validate config with
    | .error e => .error e
    | .ok _ => .ok config

/-- A manifest that `FlowEngine::new` accepts. -/
def Accepted (config : FlowConfig) : Prop := ∃ hash, create hash config = .ok config

/-! ### What an accepted manifest satisfies -/

/-- What the engine relies on. -/
structure Valid (config : FlowConfig) : Prop where
  queueCapacity : 0 < config.engine.queueCapacity
  slots : ∀ id, depthOf config id + 1 ≤ config.engine.maxConcurrency
  fanout : ∀ id relationship,
    (config.outgoing id relationship).length ≤ config.engine.queueCapacity
  concurrentTasks : ∀ p ∈ config.processors, 0 < p.scheduling.concurrentTasks
  partitionBy : ∀ p ∈ config.processors, p.scheduling.ordering = .partitioned →
    p.scheduling.partitionBy.isSome
  capacity : ∀ k ∈ config.connections, 0 < k.capacity
  target : ∀ k ∈ config.connections, k.target ∈ config.processors.map ProcessorConfig.id

theorem validateProcessors_ok {seen : List String} {ps : List ProcessorConfig}
    (h : validateProcessors seen ps = .ok ()) {p : ProcessorConfig} (hp : p ∈ ps) :
    0 < p.scheduling.concurrentTasks ∧
      (p.scheduling.ordering = .partitioned → p.scheduling.partitionBy.isSome) := by
  induction ps generalizing seen with
  | nil => cases hp
  | cons q ps ih =>
    unfold validateProcessors at h
    split at h
    · cases h
    next hq =>
      rcases List.mem_cons.mp hp with rfl | hp
      · unfold validateProcessor at hq
        split_ifs at hq with _ htasks _ _ hpart
        refine ⟨Nat.pos_of_ne_zero htasks, fun hord => ?_⟩
        cases hby : p.scheduling.partitionBy with
        | none => simp [hord, hby] at hpart
        | some s => rfl
      · exact ih h hp

theorem validateProcessors_nodup {seen : List String} {ps : List ProcessorConfig}
    (h : validateProcessors seen ps = .ok ()) :
    (ps.map ProcessorConfig.id).Nodup ∧ ∀ p ∈ ps, p.id ∉ seen := by
  induction ps generalizing seen with
  | nil => exact ⟨List.nodup_nil, by simp⟩
  | cons q ps ih =>
    unfold validateProcessors at h
    split at h
    · cases h
    next hq =>
      obtain ⟨hn, hseen⟩ := ih h
      have hnew : q.id ∉ seen := by
        unfold validateProcessor at hq
        split_ifs at hq with _ _ _ _ _ hdup
        exact hdup
      refine ⟨List.nodup_cons.mpr ⟨fun hmem => ?_, hn⟩, fun p hp => ?_⟩
      · obtain ⟨p, hp, heq⟩ := List.mem_map.mp hmem
        exact hseen p hp (heq ▸ List.mem_cons_self)
      · rcases List.mem_cons.mp hp with rfl | hp
        · exact hnew
        · exact fun hmem => hseen p hp (List.mem_cons_of_mem q.id hmem)

theorem validateConnections_ok {ids : List String} {ks : List ConnectionConfig}
    (h : validateConnections ids ks = .ok ()) {k : ConnectionConfig} (hk : k ∈ ks) :
    0 < k.capacity ∧ k.target ∈ ids := by
  induction ks with
  | nil => cases hk
  | cons j ks ih =>
    unfold validateConnections at h
    split at h
    · cases h
    next hj =>
      rcases List.mem_cons.mp hk with rfl | hk
      · unfold validateConnection at hj
        split_ifs at hj with hcap hids
        simp only [Bool.or_eq_true, decide_eq_true_eq, not_or, not_not] at hids
        exact ⟨Nat.pos_of_ne_zero hcap, hids.2⟩
      · exact ih h hk

theorem depthOf_lt {config : FlowConfig} (id : String) :
    depthOf config id < requiredPipelineSlots config := by
  unfold depthOf requiredPipelineSlots
  cases hl : (processorDownstreamDepths config).lookup id with
  | none => exact Nat.succ_pos _
  | some depth =>
    have hm : depth ∈ (processorDownstreamDepths config).map Prod.snd := by
      have hmem : ∀ memo : Depths, memo.lookup id = some depth → depth ∈ memo.map Prod.snd := by
        intro memo
        induction memo with
        | nil => intro h; cases h
        | cons x memo ih =>
          intro h
          rw [List.lookup_cons] at h
          split at h
          · cases h
            exact List.mem_cons_self
          · exact List.mem_cons_of_mem _ (ih h)
      exact hmem _ hl
    cases hmax : ((processorDownstreamDepths config).map Prod.snd).max? with
    | none =>
      rw [List.max?_eq_none_iff] at hmax
      rw [hmax] at hm
      cases hm
    | some m =>
      have hle := (List.max?_eq_some_iff.mp hmax).2 depth hm
      exact Nat.lt_succ_of_le hle

theorem fanout_le {config : FlowConfig} {n : ℕ}
    (h : ¬ (maxFanout config.connections).any (fun fanout => n < fanout) = true)
    (id relationship : String) : (config.outgoing id relationship).length ≤ n := by
  unfold FlowConfig.outgoing
  cases hf : config.connections.filter
      fun k => k.source = id && k.relationship = relationship with
  | nil => exact Nat.zero_le n
  | cons k ks =>
    have hk : k ∈ config.connections ∧ (k.source = id ∧ k.relationship = relationship) := by
      have hmem := hf ▸ List.mem_cons_self (a := k) (l := ks)
      simpa using hmem
    obtain ⟨hmem, rfl, rfl⟩ := hk
    rw [← hf, ← List.countP_eq_length_filter]
    have hin : (config.connections.countP fun j =>
        j.source = k.source && j.relationship = k.relationship) ∈
        config.connections.map fun k => config.connections.countP fun j =>
          j.source = k.source && j.relationship = k.relationship :=
      List.mem_map_of_mem (f := fun k => config.connections.countP fun j =>
        j.source = k.source && j.relationship = k.relationship) hmem
    cases hmax : maxFanout config.connections with
    | none =>
      rw [maxFanout, List.max?_eq_none_iff] at hmax
      rw [hmax] at hin
      cases hin
    | some m =>
      rw [hmax] at h
      have hle := (List.max?_eq_some_iff.mp hmax).2 _ hin
      simp only [Option.any_some, decide_eq_true_eq, Nat.not_lt] at h
      exact Nat.le_trans hle h

/-- What has been checked when `validate` accepts. -/
theorem validate_ok {config : FlowConfig} (h : validate config = .ok ()) :
    config.engine.queueCapacity ≠ 0 ∧
      (∀ id relationship,
        (config.outgoing id relationship).length ≤ config.engine.queueCapacity) ∧
      validateProcessors [] config.processors = .ok () ∧
      validateConnections (config.processors.map ProcessorConfig.id) config.connections = .ok () ∧
      requiredPipelineSlots config ≤ config.engine.maxConcurrency := by
  unfold validate at h
  simp only at h
  split_ifs at h with _ hcap hfan _ _ _ _ _ hslots
  -- no starting processor, too little concurrency, accepted
  · split at h
    · cases h
    · split at h <;> cases h
  · split at h
    · cases h
    · split at h <;> cases h
  · split at h
    · cases h
    next hps =>
      split at h
      · cases h
      next hks =>
        simp only [Bool.or_eq_true, decide_eq_true_eq, not_or] at hcap
        exact ⟨hcap.1, fanout_le hfan, hps, hks, Nat.not_lt.mp hslots⟩

theorem Accepted.validate {config : FlowConfig} (h : Accepted config) :
    validate config = .ok () := by
  obtain ⟨hash, h⟩ := h
  unfold create at h
  split at h
  · cases h
  · split at h
    · cases h
    next hv => exact hv

theorem Accepted.valid {config : FlowConfig} (h : Accepted config) : Valid config := by
  obtain ⟨hcap, hfan, hps, hks, hslots⟩ := validate_ok h.validate
  exact {
    queueCapacity := Nat.pos_of_ne_zero hcap
    slots := fun id => Nat.lt_of_lt_of_le (depthOf_lt id) hslots
    fanout := hfan
    concurrentTasks := fun p hp => (validateProcessors_ok hps hp).1
    partitionBy := fun p hp => (validateProcessors_ok hps hp).2
    capacity := fun k hk => (validateConnections_ok hks hk).1
    target := fun k hk => (validateConnections_ok hks hk).2 }

theorem Accepted.ids_nodup {config : FlowConfig} (h : Accepted config) :
    (config.processors.map ProcessorConfig.id).Nodup :=
  (validateProcessors_nodup (validate_ok h.validate).2.2.1).1

/-! ### Small flows -/

def exampleProcessor (id : String) : ProcessorConfig where
  id := id
  processorType := "transform"
  retry := ⟨0, 0, 0⟩
  scheduling := ⟨1, none, .asyncIo, .unordered, none⟩
  mode := .real

def exampleConnection (source target : String) : ConnectionConfig := ⟨source, "success", target, 10⟩

def exampleFlow (queueCapacity maxConcurrency : ℕ) (processors : List ProcessorConfig)
    (connections : List ConnectionConfig) : FlowConfig where
  id := "orders"
  engine := {
    queueCapacity := queueCapacity
    maxConcurrency := maxConcurrency
    drainTimeoutSeconds := 30
    admin := ⟨false, .bearer, "JAIBA_ADMIN_TOKEN", 65536⟩
    workers := ⟨0, 0⟩
    repositoryEnabled := true
    abandonedAfterSeconds := 60
    domainMemoryEnabled := false }
  processors := processors
  connections := connections

/-- Two processors and the connection between them. -/
def pairFlow : FlowConfig :=
  exampleFlow 1 2 [exampleProcessor "a", exampleProcessor "b"] [exampleConnection "a" "b"]

example : create .asStored pairFlow = .ok pairFlow := rfl

end Jaiba.Engine
