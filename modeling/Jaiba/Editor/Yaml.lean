import Jaiba.Lib.ThreeWay

/-!
# Import and export of the visual editor (`jaiba-ui/src/builder/yaml.ts`, `model.ts`)

`parseFlowYaml` draws a parsed document on the canvas and keeps a copy of the
document beside what it drew. `buildFlowObject` makes a document of the canvas:
of a canvas that was imported, the edits merged into the copy. A member that is
`undefined` is absent, as in the text that is written; names that every object
inherits are not keys here. Positions and colours are left out.
-/

namespace Jaiba.Editor.Yaml
open Jaiba.Lib Jaiba.Lib.Value

/-! ### The visual model -/

inductive Relationship where
  | success | failure | train | validation | test
  deriving Repr, DecidableEq

inductive ExecutionMode where
  | auto | asyncIo | blockingIo | cpu
  deriving Repr, DecidableEq

inductive OrderingMode where
  | unordered | preserve | partitioned
  deriving Repr, DecidableEq

inductive SimulationMode where
  | real | mock | replay
  deriving Repr, DecidableEq

inductive ScheduleTriggerType where
  | interval | cron | webhook
  deriving Repr, DecidableEq

inductive OverlapPolicy where
  | skip | queue | replace
  deriving Repr, DecidableEq

inductive CatchUpPolicy where
  | none | one
  deriving Repr, DecidableEq

inductive AdminAuthentication where
  | bearer | none
  deriving Repr, DecidableEq

def Relationship.text : Relationship → String
  | success => "success"
  | failure => "failure"
  | train => "train"
  | validation => "validation"
  | test => "test"

def ExecutionMode.text : ExecutionMode → String
  | auto => "auto"
  | asyncIo => "async_io"
  | blockingIo => "blocking_io"
  | cpu => "cpu"

def OrderingMode.text : OrderingMode → String
  | unordered => "unordered"
  | preserve => "preserve"
  | partitioned => "partitioned"

def SimulationMode.text : SimulationMode → String
  | real => "real"
  | mock => "mock"
  | replay => "replay"

def ScheduleTriggerType.text : ScheduleTriggerType → String
  | interval => "interval"
  | cron => "cron"
  | webhook => "webhook"

def OverlapPolicy.text : OverlapPolicy → String
  | skip => "skip"
  | queue => "queue"
  | replace => "replace"

def CatchUpPolicy.text : CatchUpPolicy → String
  | none => "none"
  | one => "one"

def AdminAuthentication.text : AdminAuthentication → String
  | bearer => "bearer"
  | none => "none"

structure RetrySettings where
  maximumAttempts : Double
  initialDelayMs : Double
  maximumDelayMs : Double
  deriving Repr, DecidableEq

structure SchedulingSettings where
  concurrentTasks : Double
  maximumInFlight : Option Double
  timeoutMs : Option Double
  executionMode : ExecutionMode
  ordering : OrderingMode
  partitionBy : Option String
  deriving Repr, DecidableEq

structure SimulationSettings where
  mode : SimulationMode
  options : Members
  deriving DecidableEq

structure ProcessorNodeData where
  processorId : String
  type : String
  config : Members
  retry : RetrySettings
  scheduling : SchedulingSettings
  simulation : SimulationSettings
  deriving DecidableEq

structure ProcessorNode where
  id : String
  data : ProcessorNodeData
  deriving DecidableEq

structure ConnectionEdgeData where
  relationship : Relationship
  queueCapacity : Double
  deriving Repr, DecidableEq

structure ConnectionEdge where
  id : String
  source : String
  target : String
  data : Option ConnectionEdgeData
  deriving Repr, DecidableEq

structure DatabaseConnection where
  name : String
  type : String
  urlEnv : String
  maxConnections : Double
  deriving Repr, DecidableEq

structure KafkaConnection where
  name : String
  brokersEnv : String
  clientId : String
  deriving Repr, DecidableEq

structure ParameterEntry where
  name : String
  value : String
  deriving Repr, DecidableEq

structure EngineSettings where
  queueCapacity : Double
  maxConcurrency : Double
  memoryMaximumPercent : Double
  repositoryEnabled : Bool
  circuitBreakerEnabled : Bool
  adminEnabled : Bool
  adminAuthentication : AdminAuthentication
  adminTokenEnv : String
  deriving Repr, DecidableEq

structure ScheduleSettings where
  enabled : Bool
  triggerType : ScheduleTriggerType
  everySeconds : Double
  cronExpression : String
  timezone : String
  overlap : OverlapPolicy
  catchUp : CatchUpPolicy
  deriving Repr, DecidableEq

/-- A block of the imported document and what was drawn of it. -/
structure Original where
  source : Value
  baseline : Option Value
  deriving DecidableEq

structure Imported where
  source : Value
  baseline : Value
  /-- under the ids of the nodes -/
  processors : List (String × Original)
  /-- under the ids of the edges -/
  connections : List (String × Original)
  deriving DecidableEq

structure FlowMeta where
  imported : Option Imported
  id : String
  parameters : List ParameterEntry
  databaseConnections : List DatabaseConnection
  kafkaConnections : List KafkaConnection
  schedule : ScheduleSettings
  engine : EngineSettings
  deriving DecidableEq

def retryDefaults : RetrySettings := ⟨.finite 0, .finite 250, .finite 30000⟩

def schedulingDefaults : SchedulingSettings := ⟨.finite 1, none, none, .auto, .unordered, none⟩

def simulationDefaults : SimulationSettings := ⟨.real, []⟩

def engineDefaults : EngineSettings :=
  ⟨.finite 100, .finite 4, .finite 42, false, true, true, .bearer, "JAIBA_ADMIN_TOKEN"⟩

def scheduleDefaults : ScheduleSettings :=
  ⟨false, .interval, .finite 60, "0 0 2 * * *", "America/Mexico_City", .skip, .none⟩

/-! ### Export -/

/-- What `trim` takes away. -/
def isWhitespace (c : Char) : Bool :=
  [9, 10, 11, 12, 13, 32, 160, 0x1680, 0x2028, 0x2029, 0x202F, 0x205F, 0x3000, 0xFEFF].contains c.toNat ||
    (0x2000 ≤ c.toNat && c.toNat ≤ 0x200A)

def trim (s : String) : String :=
  String.ofList (((s.toList.dropWhile isWhitespace).reverse.dropWhile isWhitespace).reverse)

/-- An object literal; a member without value is not set. -/
def block (fields : List (String × Option Value)) : Members :=
  fields.filterMap fun field => field.2.map (field.1, ·)

def isBlank : Value → Bool
  | .null => true
  | .string s => s = ""
  | _ => false

def cleanConfig (config : Members) : Members :=
  config.filter fun m => !(isBlank m.2 || m.2 = .array [] || m.2 = .object [])

def retryBlock (retry : RetrySettings) : Option Value :=
  if retry.maximumAttempts = retryDefaults.maximumAttempts ∧ retry.initialDelayMs = retryDefaults.initialDelayMs ∧
      retry.maximumDelayMs = retryDefaults.maximumDelayMs then none
  else some (.object [("maximum_attempts", .number retry.maximumAttempts),
    ("initial_delay_ms", .number retry.initialDelayMs), ("maximum_delay_ms", .number retry.maximumDelayMs)])

def schedulingBlock (scheduling : SchedulingSettings) : Option Value :=
  let fields := block [
    ("concurrent_tasks", if scheduling.concurrentTasks ≠ schedulingDefaults.concurrentTasks then
      some (.number scheduling.concurrentTasks) else none),
    ("maximum_in_flight", scheduling.maximumInFlight.map .number),
    ("timeout_ms", scheduling.timeoutMs.map .number),
    ("execution_mode", if scheduling.executionMode ≠ schedulingDefaults.executionMode then
      some (.string scheduling.executionMode.text) else none),
    ("ordering", if scheduling.ordering ≠ schedulingDefaults.ordering then
      some (.string scheduling.ordering.text) else none),
    ("partition_by", if scheduling.ordering = .partitioned ∧ scheduling.partitionBy.getD "" ≠ "" then
      scheduling.partitionBy.map .string else none)]
  if fields = [] then none else some (.object fields)

def simulationBlock (simulation : SimulationSettings) : Option Value :=
  if simulation.mode ≠ simulationDefaults.mode ∨ simulation.options ≠ [] then
    some (.object (block [("mode", some (.string simulation.mode.text)),
      ("options", if simulation.options ≠ [] then some (.object simulation.options) else none)]))
  else none

def engineBlock (e : EngineSettings) : Value :=
  .object [("queue_capacity", .number e.queueCapacity), ("max_concurrency", .number e.maxConcurrency),
    ("memory", .object [("maximum_percent", .number e.memoryMaximumPercent)]),
    ("repository", .object [("enabled", .bool e.repositoryEnabled)]),
    ("circuit_breaker", .object [("enabled", .bool e.circuitBreakerEnabled)]),
    ("admin", .object [("enabled", .bool e.adminEnabled),
      ("authentication", .string e.adminAuthentication.text), ("token_env", .string e.adminTokenEnv)])]

/-- The entries whose names are not blank, under their names. -/
def named {α : Type} (entries : List α) (name : α → String) (value : α → Value) : Value :=
  .object (Members.fromEntries ((entries.filter fun e => trim (name e) ≠ "").map fun e => (name e, value e)))

def triggerBlock (schedule : ScheduleSettings) : Value :=
  match schedule.triggerType with
  | .interval => .object [("type", .string "interval"), ("every_seconds", .number schedule.everySeconds)]
  | .cron => .object [("type", .string "cron"), ("expression", .string schedule.cronExpression)]
  | .webhook => .object [("type", .string "webhook")]

def scheduleBlock (schedule : ScheduleSettings) : Option Value :=
  if schedule.enabled then
    some (.object (block [("enabled", some (.bool true)), ("overlap", some (.string schedule.overlap.text)),
      ("catch_up", some (.string schedule.catchUp.text)), ("trigger", some (triggerBlock schedule)),
      ("timezone", if schedule.triggerType = .cron ∧ trim schedule.timezone ≠ "" then
        some (.string (trim schedule.timezone)) else none)]))
  else none

def processorBlock (data : ProcessorNodeData) : Members :=
  let config := cleanConfig data.config
  block [("id", some (.string data.processorId)), ("type", some (.string data.type)),
    ("config", if config ≠ [] then some (.object config) else none), ("retry", retryBlock data.retry),
    ("scheduling", schedulingBlock data.scheduling), ("simulation", simulationBlock data.simulation)]

/-- How `preserveImported` knows an item of an array again; the three values stand for their text. -/
def identity (value : Value) : Option Value :=
  let item := membersOf (some value)
  match item.lookup "id", item.lookup "from" with
  | some (.string id), _ => some (.string id)
  | _, some (.string origin) =>
    some (image (.array [.string origin, (item.lookup "to").getD .null, (item.lookup "relationship").getD .null]))
  | _, _ => none

/-- Applies the visual edits to the imported document. -/
def preserveImported (source baseline : Option Value) (current : Value) : Option Value :=
  merge identity source baseline current

/-- Blocks that disappear where their controls are at the defaults are merged as empty ones. -/
def preserveImportedSettings (source : Value) (baseline : Option Value) (current : Members)
    (defaultableBlocks : List String) : Members :=
  let resetBlocks := defaultableBlocks.filter fun key =>
    key ∈ Members.keys (membersOf baseline) && !(key ∈ Members.keys current)
  let adjusted := resetBlocks.foldl (fun c key => Members.put key (.object []) c) current
  resetBlocks.foldl
    (fun result key => if membersOf (result.lookup key) = [] then Members.erase key result else result)
    (membersOf (preserveImported (some source) baseline (.object adjusted)))

/-- The id of the processor of a node, by the id of the node. -/
def idByNode (nodes : List ProcessorNode) (node : String) : Option String :=
  (nodes.reverse.map fun n => (n.id, n.data.processorId)).lookup node

def relationshipOf (edge : ConnectionEdge) : Relationship :=
  match edge.data with
  | some data => data.relationship
  | none => .success

def queueCapacityOf (edge : ConnectionEdge) : Double :=
  match edge.data with
  | some data => data.queueCapacity
  | none => .finite 100

/-- A connection between processors whose ids are not empty. -/
def connectionBlock (nodes : List ProcessorNode) (edge : ConnectionEdge) : Option Members :=
  match idByNode nodes edge.source, idByNode nodes edge.target with
  | some origin, some target =>
    if origin = "" ∨ target = "" then none
    else
      let capacity := queueCapacityOf edge
      some (block [("from", some (.string origin)), ("relationship", some (.string (relationshipOf edge).text)),
        ("to", some (.string target)),
        ("queue", if capacity ≠ .finite 100 then some (.object [("capacity", .number capacity)]) else none)])
  | _, _ => none

def exportProcessor (imported : Option Imported) (node : ProcessorNode) : Value :=
  let current := processorBlock node.data
  match imported.bind fun i => i.processors.lookup node.id with
  | some original =>
    .object (preserveImportedSettings original.source original.baseline current ["scheduling", "retry", "simulation"])
  | none => .object current

def exportConnection (imported : Option Imported) (nodes : List ProcessorNode) (edge : ConnectionEdge) : Option Value :=
  (connectionBlock nodes edge).map fun connection =>
    match imported.bind fun i => i.connections.lookup edge.id with
    | some original => .object (preserveImportedSettings original.source original.baseline connection ["queue"])
    | none => .object connection

/-- What the canvas says, before the edits are merged. -/
def drawnFlow (flow : FlowMeta) (nodes : List ProcessorNode) (connections : List Value) : Value :=
  .object (block [
    ("id", some (.string (if flow.id = "" then "flujo" else flow.id))),
    ("parameters", if flow.parameters ≠ [] then
      some (named flow.parameters (·.name) fun p => .string p.value) else none),
    ("database_connections", if flow.databaseConnections ≠ [] then
      some (named flow.databaseConnections (·.name) fun c => .object [("type", .string c.type),
        ("url_env", .string c.urlEnv), ("max_connections", .number c.maxConnections)]) else none),
    ("kafka_connections", if flow.kafkaConnections ≠ [] then
      some (named flow.kafkaConnections (·.name) fun c => .object [("brokers_env", .string c.brokersEnv),
        ("client_id", .string c.clientId)]) else none),
    ("schedule", scheduleBlock flow.schedule),
    ("engine", some (engineBlock flow.engine)),
    ("processors", some (.array (nodes.map fun node => .object (processorBlock node.data)))),
    ("connections", if connections ≠ [] then some (.array connections) else none)])

def buildFlowObject (flow : FlowMeta) (nodes : List ProcessorNode) (edges : List ConnectionEdge) : Value :=
  let connections := edges.filterMap (exportConnection flow.imported nodes)
  let drawn := drawnFlow flow nodes connections
  match flow.imported with
  | some imported =>
    let result := membersOf (preserveImported (some imported.source) (some imported.baseline) drawn)
    .object (Members.put "connections" (.array connections)
      (Members.put "processors" (.array (nodes.map (exportProcessor flow.imported))) result))
  | none => drawn

/-! ### Import -/

def numberOr (value : Option Value) (fallback : Double) : Double :=
  match value with
  | some (.number (.finite q)) => .finite q
  | _ => fallback

def stringOr (value : Option Value) (fallback : String) : String :=
  match value with
  | some (.string s) => s
  | _ => fallback

def stringOrNull (value : Option Value) : Option String :=
  match value with
  | some (.string s) => some s
  | _ => none

def boolOr (value : Option Value) (fallback : Bool) : Bool :=
  match value with
  | some (.bool b) => b
  | _ => fallback

/-- `Boolean(value)` -/
def truthy : Option Value → Bool
  | none | some .null => false
  | some (.bool b) => b
  | some (.number n) => n ≠ .finite 0 && n ≠ .nan
  | some (.string s) => s ≠ ""
  | some (.array _) | some (.object _) => true

/-- The text among those of `all`, else the fallback. -/
def oneOf {α : Type} (all : List α) (text : α → String) (value : Option Value) (fallback : α) : α :=
  match value with
  | some (.string s) => (all.find? fun a => text a = s).getD fallback
  | _ => fallback

def parseRelationship (value : Option Value) : Relationship :=
  oneOf [.success, .failure, .train, .validation, .test] Relationship.text value .success

structure Canvas where
  flow : FlowMeta
  nodes : List ProcessorNode
  edges : List ConnectionEdge
  deriving DecidableEq

section import_
-- `String(value)` of a value that is no string
variable (text : Value → String)

def readParameter (entry : String × Value) : ParameterEntry :=
  ⟨entry.1,
    match entry.2 with
    | .string s => s
    | .null => ""
    | v => text v⟩

def readDatabaseConnection (entry : String × Value) : DatabaseConnection :=
  let value := membersOf (some entry.2)
  ⟨entry.1, stringOr (value.lookup "type") "postgres", stringOr (value.lookup "url_env") "",
    numberOr (value.lookup "max_connections") (.finite 5)⟩

def readKafkaConnection (entry : String × Value) : KafkaConnection :=
  let value := membersOf (some entry.2)
  ⟨entry.1, stringOr (value.lookup "brokers_env") "", stringOr (value.lookup "client_id") "jaiva"⟩

def readSchedule (scheduleRoot : Members) : ScheduleSettings :=
  let trigger := membersOf (scheduleRoot.lookup "trigger")
  { enabled := truthy (scheduleRoot.lookup "enabled")
    triggerType := oneOf [.interval, .cron, .webhook] ScheduleTriggerType.text (trigger.lookup "type")
      scheduleDefaults.triggerType
    everySeconds := numberOr (trigger.lookup "every_seconds") scheduleDefaults.everySeconds
    cronExpression := stringOr (trigger.lookup "expression") scheduleDefaults.cronExpression
    timezone := stringOr (scheduleRoot.lookup "timezone") scheduleDefaults.timezone
    overlap := oneOf [.skip, .queue, .replace] OverlapPolicy.text (scheduleRoot.lookup "overlap")
      scheduleDefaults.overlap
    catchUp := oneOf [.none, .one] CatchUpPolicy.text (scheduleRoot.lookup "catch_up") scheduleDefaults.catchUp }

def readEngine (engine : Members) : EngineSettings :=
  let memory := membersOf (engine.lookup "memory")
  let repository := membersOf (engine.lookup "repository")
  let circuitBreaker := membersOf (engine.lookup "circuit_breaker")
  let admin := membersOf (engine.lookup "admin")
  { queueCapacity := numberOr (engine.lookup "queue_capacity") engineDefaults.queueCapacity
    maxConcurrency := numberOr (engine.lookup "max_concurrency") engineDefaults.maxConcurrency
    memoryMaximumPercent := numberOr (memory.lookup "maximum_percent") engineDefaults.memoryMaximumPercent
    repositoryEnabled := boolOr (repository.lookup "enabled") engineDefaults.repositoryEnabled
    circuitBreakerEnabled := boolOr (circuitBreaker.lookup "enabled") engineDefaults.circuitBreakerEnabled
    adminEnabled := boolOr (admin.lookup "enabled") engineDefaults.adminEnabled
    adminAuthentication := oneOf [.none] AdminAuthentication.text (admin.lookup "authentication")
      engineDefaults.adminAuthentication
    adminTokenEnv := stringOr (admin.lookup "token_env") engineDefaults.adminTokenEnv }

def readRetry (retry : Members) : RetrySettings :=
  ⟨numberOr (retry.lookup "maximum_attempts") retryDefaults.maximumAttempts,
    numberOr (retry.lookup "initial_delay_ms") retryDefaults.initialDelayMs,
    numberOr (retry.lookup "maximum_delay_ms") retryDefaults.maximumDelayMs⟩

def readScheduling (scheduling : Members) : SchedulingSettings :=
  { concurrentTasks := numberOr (scheduling.lookup "concurrent_tasks") schedulingDefaults.concurrentTasks
    maximumInFlight := (scheduling.lookup "maximum_in_flight").map fun v => numberOr (some v) (.finite 1)
    timeoutMs := (scheduling.lookup "timeout_ms").map fun v => numberOr (some v) (.finite 1)
    executionMode := oneOf [.asyncIo, .blockingIo, .cpu] ExecutionMode.text (scheduling.lookup "execution_mode") .auto
    ordering := oneOf [.preserve, .partitioned] OrderingMode.text (scheduling.lookup "ordering") .unordered
    partitionBy := stringOrNull (scheduling.lookup "partition_by") }

def readSimulation (simulation : Members) : SimulationSettings :=
  ⟨oneOf [.mock, .replay] SimulationMode.text (simulation.lookup "mode") .real,
    membersOf (simulation.lookup "options")⟩

def readProcessor (index : ℕ) (processor : Members) : ProcessorNodeData :=
  { processorId := stringOr (processor.lookup "id") ("processor_" ++ toString (index + 1))
    type := stringOr (processor.lookup "type") ""
    config := membersOf (processor.lookup "config")
    retry := readRetry (membersOf (processor.lookup "retry"))
    scheduling := readScheduling (membersOf (processor.lookup "scheduling"))
    simulation := readSimulation (membersOf (processor.lookup "simulation")) }

/-- `id.replace(/[^a-zA-Z0-9_-]/g, "_")`, for each UTF-16 unit. -/
def sanitize (id : String) : String :=
  String.ofList (id.toList.flatMap fun c =>
    if c.isAlphanum ∨ c = '_' ∨ c = '-' then [c] else if c.toNat < 0x10000 then ['_'] else ['_', '_'])

def readNode (index : ℕ) (processor : Members) : ProcessorNode :=
  let data := readProcessor index processor
  ⟨"import_" ++ toString index ++ "_" ++ sanitize data.processorId, data⟩

/-- The node of a processor; of processors with one id the last counts. -/
def nodeByProcessor (nodes : List ProcessorNode) (id : String) : Option String :=
  (nodes.reverse.map fun n => (n.data.processorId, n.id)).lookup id

def readEdge (nodes : List ProcessorNode) (index : ℕ) (connection : Members) : Option ConnectionEdge :=
  match nodeByProcessor nodes (stringOr (connection.lookup "from") ""),
    nodeByProcessor nodes (stringOr (connection.lookup "to") "") with
  | some source, some target =>
    some ⟨"import_edge_" ++ toString index, source, target,
      some ⟨parseRelationship (connection.lookup "relationship"),
        numberOr ((membersOf (connection.lookup "queue")).lookup "capacity") (.finite 100)⟩⟩
  | _, _ => none

/-- The objects of an array; what is no object counts as an empty one. -/
def objectsOf (value : Option Value) : List Members := (itemsOf value).map fun item => membersOf (some item)

def readFlow (root : Members) : FlowMeta :=
  { imported := none
    id := stringOr (root.lookup "id") "flujo"
    parameters := (membersOf (root.lookup "parameters")).map (readParameter text)
    databaseConnections := (membersOf (root.lookup "database_connections")).map readDatabaseConnection
    kafkaConnections := (membersOf (root.lookup "kafka_connections")).map readKafkaConnection
    schedule := readSchedule (membersOf (root.lookup "schedule"))
    engine := readEngine (membersOf (root.lookup "engine")) }

def readNodes (root : Members) : List ProcessorNode := (objectsOf (root.lookup "processors")).mapIdx readNode

/-- A connection with an end that is no processor is not drawn. -/
def readEdges (root : Members) : List ConnectionEdge :=
  ((objectsOf (root.lookup "connections")).mapIdx (readEdge (readNodes root))).filterMap id

/-- The copies. That of an edge is the connection at its own index among the edges. -/
def importedOf (root : Members) : Imported :=
  let nodes := readNodes root
  let edges := readEdges root
  let baseline := buildFlowObject (readFlow text root) nodes edges
  let processors := itemsOf ((membersOf (some baseline)).lookup "processors")
  let connections := itemsOf ((membersOf (some baseline)).lookup "connections")
  { source := .object root
    baseline := baseline
    processors := Members.fromEntries ((nodes.zip (objectsOf (root.lookup "processors"))).mapIdx fun index p =>
      (p.1.id, ⟨.object p.2, processors[index]?⟩))
    connections := Members.fromEntries ((edges.zip (objectsOf (root.lookup "connections"))).mapIdx fun index p =>
      (p.1.id, ⟨.object p.2, connections[index]?⟩)) }

/-- `parseFlowYaml`, after `parse`. -/
def parseFlowYaml (document : Value) : Except String Canvas :=
  let root := membersOf (some document)
  if objectsOf (root.lookup "processors") = [] then .error "El YAML no contiene procesadores."
  else .ok ⟨{ readFlow text root with imported := some (importedOf text root) }, readNodes root, readEdges root⟩

end import_

end Jaiba.Editor.Yaml
