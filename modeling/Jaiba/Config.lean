import Mathlib.Data.List.Nodup

/-!
# Flow configuration (`jaiba-core/src/config/flow.rs`)

The part of a flow manifest that the engine reads: the graph, the capacities and
the scheduling of each processor. The fields `from` and `to` of a connection are
`source` and `target` here.
-/

namespace Jaiba

inductive ExecutionMode where
  | auto | asyncIo | blockingIo | cpu
  deriving Repr, DecidableEq

inductive OrderingMode where
  | unordered | preserve | partitioned
  deriving Repr, DecidableEq

inductive DataExecutionMode where
  | real | mock | replay
  deriving Repr, DecidableEq

/-- The derived `Debug` text. -/
def DataExecutionMode.debug : DataExecutionMode → String
  | .real => "Real"
  | .mock => "Mock"
  | .replay => "Replay"

inductive AdminAuthentication where
  | none | bearer
  deriving Repr, DecidableEq

structure RetryConfig where
  maximumAttempts : ℕ
  initialDelayMs : ℕ
  maximumDelayMs : ℕ
  deriving Repr, DecidableEq

structure SchedulingConfig where
  concurrentTasks : ℕ
  maximumInFlight : Option ℕ
  executionMode : ExecutionMode
  ordering : OrderingMode
  partitionBy : Option String
  deriving Repr, DecidableEq

structure ProcessorConfig where
  id : String
  processorType : String
  retry : RetryConfig
  scheduling : SchedulingConfig
  mode : DataExecutionMode
  deriving Repr, DecidableEq

structure ConnectionConfig where
  source : String
  relationship : String
  target : String
  capacity : ℕ
  deriving Repr, DecidableEq

structure AdminConfig where
  enabled : Bool
  authentication : AdminAuthentication
  tokenEnv : String
  maxRequestBodyBytes : ℕ
  deriving Repr, DecidableEq

structure WorkerConfig where
  cpuThreads : ℕ
  blockingThreads : ℕ
  deriving Repr, DecidableEq

structure EngineConfig where
  queueCapacity : ℕ
  maxConcurrency : ℕ
  drainTimeoutSeconds : ℕ
  admin : AdminConfig
  workers : WorkerConfig
  repositoryEnabled : Bool
  abandonedAfterSeconds : ℕ
  domainMemoryEnabled : Bool
  deriving Repr, DecidableEq

structure FlowConfig where
  id : String
  engine : EngineConfig
  processors : List ProcessorConfig
  connections : List ConnectionConfig
  deriving Repr, DecidableEq

namespace FlowConfig

/-- `definitions.get(id)`, the map built from the list of processors. Later
entries replace earlier ones; `validate` refuses duplicate ids. -/
def definition? (c : FlowConfig) (id : String) : Option ProcessorConfig :=
  c.processors.reverse.find? fun p => p.id = id

theorem definition?_id {c : FlowConfig} {id : String} {p : ProcessorConfig}
    (h : c.definition? id = some p) : p.id = id := by
  simpa using List.find?_some h

theorem definition?_mem {c : FlowConfig} {id : String} {p : ProcessorConfig}
    (h : c.definition? id = some p) : p ∈ c.processors :=
  List.mem_reverse.mp (List.mem_of_find?_eq_some h)

theorem definition?_isSome {c : FlowConfig} {id : String}
    (h : id ∈ c.processors.map ProcessorConfig.id) : (c.definition? id).isSome := by
  obtain ⟨p, hp, rfl⟩ := List.mem_map.mp h
  exact List.find?_isSome.mpr ⟨p, List.mem_reverse.mpr hp, by simp⟩

theorem definition?_of_mem {c : FlowConfig} {p : ProcessorConfig}
    (hn : (c.processors.map ProcessorConfig.id).Nodup) (hp : p ∈ c.processors) :
    c.definition? p.id = some p := by
  obtain ⟨q, hq⟩ := Option.isSome_iff_exists.mp
    (definition?_isSome (List.mem_map_of_mem (f := ProcessorConfig.id) hp))
  rw [hq, List.inj_on_of_nodup_map hn (definition?_mem hq) hp (definition?_id hq)]

/-- Connections of one relationship of a processor, in the order of the manifest. -/
def outgoing (c : FlowConfig) (processorId relationship : String) : List ConnectionConfig :=
  c.connections.filter fun k => k.source = processorId && k.relationship = relationship

/-- `routed_relationships.contains`: some connection leaves by the relationship. -/
def routes (c : FlowConfig) (processorId relationship : String) : Bool :=
  c.connections.any fun k => k.source = processorId && k.relationship = relationship

end FlowConfig

/-- Stable identifier of an edge: `from.relationship.to`. -/
def ConnectionConfig.connectionId (k : ConnectionConfig) : String :=
  k.source ++ "." ++ k.relationship ++ "." ++ k.target

end Jaiba
