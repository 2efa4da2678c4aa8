import Jaiba.Control
import Jaiba.Engine.Partition
import Jaiba.Engine.Retry
import Jaiba.Engine.Validation
import Jaiba.Repository.Store

/-!
# State of one run (`engine/executor/mod.rs`)

The variables of `run_inner` and of its tasks. The packet memory is not part of
it: the process budget is shared with other flows, so whether a reservation is
granted is an input of the step that asks for it.
-/

namespace Jaiba.Engine
open Jaiba.Control Jaiba.Repository

/-- A packet that waits for a processor. `serial` is a mark of the model. -/
structure WorkItem where
  processorId : String
  packet : DataPacket
  connection : Option String
  queueId : Option String
  serial : ℕ

/-- Initial work of a source: it takes no queue capacity. -/
def WorkItem.isSourceSeed (w : WorkItem) : Bool := w.connection.isNone && w.queueId.isNone

/-- A packet in the emissions channel. `serial` and `source`, the queue row of
the execution that emitted it, are marks of the model. -/
structure ProcessorEmission where
  processorId : String
  relationship : String
  packet : DataPacket
  serial : ℕ
  source : Option String

/-- A spawned task that has not been joined. It executes once it has its worker
permit, and is finished when nothing is left to emit. -/
structure Task where
  serial : ℕ
  processorId : String
  partitionKey : Option String
  queueId : Option String
  mode : ExecutionMode
  permit : Bool
  program : Program

def Task.finished (t : Task) : Bool := t.permit && t.program.emits.isEmpty

/-- The modes that run on a bounded pool. -/
def pooled : ExecutionMode → Bool
  | .cpu | .blockingIo => true
  | .auto | .asyncIo => false

/-- The task holds one of the permits of a pool. -/
def Task.holds (mode : ExecutionMode) (t : Task) : Bool :=
  pooled t.mode && t.mode = mode && t.permit && !t.program.emits.isEmpty

/-- How `run_inner` is left. -/
inductive Exit where
  | finished
  | failed (error : FlowError)
  | panicked (message : String)
  deriving Repr, DecidableEq

/-- Where `run_inner` stands. -/
inductive Phase where
  /-- at the head of the loop -/
  | head
  /-- before `schedule_available` -/
  | scheduling
  /-- before the exit test -/
  | checking
  /-- at the `select!` -/
  | selecting
  | ended (exit : Exit)
  deriving Repr, DecidableEq

/-- What one run is given: the accepted manifest, what execution `serial` of a
processor does with a packet, the modes of the processors and the worker pools. -/
structure Setup where
  config : FlowConfig
  codec : Codec
  execute : ℕ → String → DataPacket → Attempt
  processorMode : String → ExecutionMode
  pool : ExecutionMode → ℕ

namespace Setup

variable (σ : Setup)

/-- The execution mode of a processor: its own, or the configured one. -/
def modeOf (p : ProcessorConfig) : ExecutionMode :=
  match p.scheduling.executionMode with
  | .auto => σ.processorMode p.id
  | configured => configured

/-- What the task started for a work item does. -/
def programOf (w : WorkItem) (p : ProcessorConfig) : Program :=
  executeWithRetry (σ.execute w.serial p.id) p.id p.retry w.packet

/-- The emissions of a program that go through the channel. -/
def routed (processorId : String) (emits : List (String × DataPacket)) :
    List (String × DataPacket) :=
  emits.filter fun e => σ.config.routes processorId e.1

end Setup

/-- What has happened so far: accepted emissions, routed emissions and the rows
enqueued for the connections of each. Marks of the model. -/
structure Trace where
  accepted : List ProcessorEmission
  routed : List ProcessorEmission
  published : List (ℕ × ConnectionConfig × String)

structure State where
  control : FlowLifecycle
  phase : Phase
  pending : List WorkItem
  running : List Task
  active : String → ℕ
  partitions : String → List String
  deferred : Option ProcessorEmission
  memoryStall : Option FlowError
  channel : List ProcessorEmission
  db : Option Database
  next : ℕ
  trace : Trace

namespace State

/-- The emissions not yet routed, the oldest first. -/
def waiting (s : State) : List ProcessorEmission := s.deferred.toList ++ s.channel

/-- The places left in the channel. -/
def places (σ : Setup) (s : State) : ℕ := σ.config.engine.queueCapacity - s.channel.length

/-- The number of pending packets that take queue capacity. -/
def queued (pending : List WorkItem) : ℕ := pending.countP fun w => !w.isSourceSeed

/-- Free permits of a pool. -/
def freePermits (σ : Setup) (s : State) (mode : ExecutionMode) : ℕ :=
  σ.pool mode - s.running.countP (Task.holds mode)

end State

/-- The partition key of a started task is taken. -/
def insertPartition (partitions : String → List String) (processorId : String) :
    Option String → String → List String
  | some key => Function.update partitions processorId (key :: partitions processorId)
  | none => partitions

/-- The partition key of a joined task is free again. -/
def removePartition (partitions : String → List String) (processorId : String) :
    Option String → String → List String
  | some key => Function.update partitions processorId ((partitions processorId).erase key)
  | none => partitions

/-- Seeds of the processors that no connection leads to. -/
def sourceSeeds (config : FlowConfig) (packetId : ℕ → String) : List WorkItem :=
  (config.processors.filter fun p => !config.connections.any fun k => k.target = p.id).mapIdx
    fun i p => ⟨p.id, .empty (packetId i), none, none, i⟩

/-- The start of the loop on the recovered work, or on the seeds without any. -/
def State.init (σ : Setup) (packetId : ℕ → String) (recovered : List WorkItem)
    (db : Option Database) : State where
  control := .running
  phase := .head
  pending := if recovered.isEmpty then sourceSeeds σ.config packetId else recovered
  running := []
  active := fun _ => 0
  partitions := fun _ => []
  deferred := none
  memoryStall := none
  channel := []
  db := db
  next := recovered.length + σ.config.processors.length
  trace := ⟨[], [], []⟩

end Jaiba.Engine
