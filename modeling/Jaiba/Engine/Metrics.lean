import Jaiba.Lib.Dict

/-!
# Metrics of a flow

`FlowMetrics::prometheus` renders the summary of one flow as a text of lines:
a `# HELP` and a `# TYPE` line for each family and the samples.
-/

namespace Jaiba.Engine.Metrics

open Jaiba.Lib

inductive Kind
  | counter | gauge
  deriving DecidableEq

def Kind.text : Kind → String
  | .counter => "counter"
  | .gauge => "gauge"

/-- A metric family. -/
structure Family where
  name : String
  kind : Kind
  help : String

/-- The fields of `FlowSummary` rendered without labels. -/
inductive Total
  | processed | failed | retried | emitted | queueDepth | activeTasks | memoryUsedBytes
  | memoryBudgetBytes | backpressureTotal | repositoryPending | repositoryRunning
  | repositoryDeadLetter | repositoryContentBytes | recoveredPackets | databaseRowsWritten
  | databaseBatchesWritten | databaseWriteErrors | databaseRollbacks | databaseWriteDurationMs
  | kafkaMessagesPublished | kafkaBytesPublished | kafkaPublishErrors | kafkaMessagesConsumed
  | kafkaBytesConsumed | kafkaConsumeErrors | circuitRejections | circuitsOpen
  | availableParallelism | cpuWorkerLimit | blockingWorkerLimit
  deriving DecidableEq

def Total.all : List Total :=
  [.processed, .failed, .retried, .emitted, .queueDepth, .activeTasks, .memoryUsedBytes,
   .memoryBudgetBytes, .backpressureTotal, .repositoryPending, .repositoryRunning,
   .repositoryDeadLetter, .repositoryContentBytes, .recoveredPackets, .databaseRowsWritten,
   .databaseBatchesWritten, .databaseWriteErrors, .databaseRollbacks, .databaseWriteDurationMs,
   .kafkaMessagesPublished, .kafkaBytesPublished, .kafkaPublishErrors, .kafkaMessagesConsumed,
   .kafkaBytesConsumed, .kafkaConsumeErrors, .circuitRejections, .circuitsOpen,
   .availableParallelism, .cpuWorkerLimit, .blockingWorkerLimit]

def Total.family : Total → Family
  | .processed => ⟨"jaiva_packets_processed_total", .counter, "Packets processed successfully."⟩
  | .failed => ⟨"jaiva_packets_failed_total", .counter, "Packets that exhausted retries."⟩
  | .retried => ⟨"jaiva_packet_retries_total", .counter, "Processor retry attempts."⟩
  | .emitted => ⟨"jaiva_packets_emitted_total", .counter, "Packets routed to connections."⟩
  | .queueDepth => ⟨"jaiva_queue_depth", .gauge, "Current in-memory queue depth."⟩
  | .activeTasks => ⟨"jaiva_active_tasks", .gauge, "Current processor tasks."⟩
  | .memoryUsedBytes => ⟨"jaiva_memory_used_bytes", .gauge, "Estimated bytes reserved by packets."⟩
  | .memoryBudgetBytes => ⟨"jaiva_memory_budget_bytes", .gauge, "Maximum packet-memory budget."⟩
  | .backpressureTotal =>
    ⟨"jaiva_backpressure_total", .counter, "Times producers waited for memory."⟩
  | .repositoryPending =>
    ⟨"jaiva_repository_pending_packets", .gauge, "Persistent packets waiting for processing."⟩
  | .repositoryRunning =>
    ⟨"jaiva_repository_running_packets", .gauge, "Persistent packets being processed."⟩
  | .repositoryDeadLetter =>
    ⟨"jaiva_repository_dead_letter_packets", .gauge, "Persistent failed packets."⟩
  | .repositoryContentBytes =>
    ⟨"jaiva_repository_content_bytes", .gauge, "Referenced persistent content bytes."⟩
  | .recoveredPackets =>
    ⟨"jaiva_recovered_packets_total", .counter, "Packets recovered after interruption."⟩
  | .databaseRowsWritten =>
    ⟨"jaiva_database_rows_written_total", .counter, "Rows committed by database writers."⟩
  | .databaseBatchesWritten =>
    ⟨"jaiva_database_batches_written_total", .counter, "Batches committed by database writers."⟩
  | .databaseWriteErrors =>
    ⟨"jaiva_database_write_errors_total", .counter, "Database write attempts that failed."⟩
  | .databaseRollbacks =>
    ⟨"jaiva_database_transaction_rollbacks_total", .counter, "Database write rollbacks."⟩
  | .databaseWriteDurationMs =>
    ⟨"jaiva_database_write_duration_milliseconds_total", .counter, "Total committed write time."⟩
  | .kafkaMessagesPublished =>
    ⟨"jaiva_kafka_messages_published_total", .counter, "Kafka messages acknowledged by brokers."⟩
  | .kafkaBytesPublished =>
    ⟨"jaiva_kafka_bytes_published_total", .counter, "Kafka payload bytes acknowledged by brokers."⟩
  | .kafkaPublishErrors =>
    ⟨"jaiva_kafka_publish_errors_total", .counter, "Kafka publish attempts that failed."⟩
  | .kafkaMessagesConsumed =>
    ⟨"jaiva_kafka_messages_consumed_total", .counter, "Kafka messages committed by consumers."⟩
  | .kafkaBytesConsumed =>
    ⟨"jaiva_kafka_bytes_consumed_total", .counter, "Kafka payload bytes consumed."⟩
  | .kafkaConsumeErrors =>
    ⟨"jaiva_kafka_consume_errors_total", .counter, "Kafka consume attempts that failed."⟩
  | .circuitRejections =>
    ⟨"jaiva_circuit_breaker_rejections_total", .counter, "Operations rejected by open circuits."⟩
  | .circuitsOpen => ⟨"jaiva_circuit_breakers_open", .gauge, "Current open connection circuits."⟩
  | .availableParallelism =>
    ⟨"jaiva_available_parallelism", .gauge, "Logical CPUs visible to Jaiva."⟩
  | .cpuWorkerLimit => ⟨"jaiva_cpu_worker_limit", .gauge, "Maximum concurrent CPU jobs."⟩
  | .blockingWorkerLimit =>
    ⟨"jaiva_blocking_worker_limit", .gauge, "Maximum concurrent blocking jobs."⟩

/-- The fields of `MemorySnapshot`. -/
inductive MemoryTotal
  | hotObjects | hotBytes | warmObjects | coldObjects | coldBytes | coldMaxDiskBytes
  | coldQuotaRejections | coldHits | coldMisses | coldReadFailures | coldSalvagedSegments
  | frozenObjects | evictions | persistQueue | promotions | demotions | immediateFailures
  | deferredFailures
  deriving DecidableEq

def MemoryTotal.all : List MemoryTotal :=
  [.hotObjects, .hotBytes, .warmObjects, .coldObjects, .coldBytes, .coldMaxDiskBytes,
   .coldQuotaRejections, .coldHits, .coldMisses, .coldReadFailures, .coldSalvagedSegments,
   .frozenObjects, .evictions, .persistQueue, .promotions, .demotions, .immediateFailures,
   .deferredFailures]

def MemoryTotal.family : MemoryTotal → Family
  | .hotObjects => ⟨"jaiba_memory_hot_objects", .gauge, "JME objects in Hot."⟩
  | .hotBytes => ⟨"jaiba_memory_hot_bytes", .gauge, "Estimated JME bytes in Hot."⟩
  | .warmObjects => ⟨"jaiba_memory_warm_objects", .gauge, "JME objects in Warm."⟩
  | .coldObjects => ⟨"jaiba_memory_cold_objects", .gauge, "JME objects in segmented Cold."⟩
  | .coldBytes => ⟨"jaiba_memory_cold_bytes", .gauge, "JME bytes used by Cold segments."⟩
  | .coldMaxDiskBytes =>
    ⟨"jaiba_memory_cold_max_disk_bytes", .gauge,
      "Configured JME Cold disk quota; zero means unlimited."⟩
  | .coldQuotaRejections =>
    ⟨"jaiba_memory_cold_quota_rejections_total", .counter,
      "JME Cold writes rejected by disk quota."⟩
  | .coldHits => ⟨"jaiba_memory_cold_hits_total", .counter, "JME Cold read hits."⟩
  | .coldMisses => ⟨"jaiba_memory_cold_misses_total", .counter, "JME Cold read misses."⟩
  | .coldReadFailures =>
    ⟨"jaiba_memory_cold_read_failures_total", .counter,
      "JME Cold reads rejected as corrupt or unreadable."⟩
  | .coldSalvagedSegments =>
    ⟨"jaiba_memory_cold_salvaged_segments_total", .counter,
      "JME Cold segments salvaged at startup; originals kept as .corrupt."⟩
  | .frozenObjects => ⟨"jaiba_memory_frozen_objects", .gauge, "JME objects in Frozen."⟩
  | .evictions => ⟨"jaiba_memory_evictions_total", .counter, "JME Hot evictions."⟩
  | .persistQueue => ⟨"jaiba_memory_persist_queue", .gauge, "Deferred records pending persistence."⟩
  | .promotions => ⟨"jaiba_memory_promotions_total", .counter, "JME promotions to Hot."⟩
  | .demotions => ⟨"jaiba_memory_demotions_total", .counter, "JME demotions from Hot."⟩
  | .immediateFailures =>
    ⟨"jaiba_memory_immediate_failures_total", .counter, "Immediate persistence failures."⟩
  | .deferredFailures =>
    ⟨"jaiba_memory_deferred_failures_total", .counter, "Deferred persistence failures."⟩

/-- The fields of `ProcessorSummary` labelled with the processor alone. -/
inductive ProcessorMetric
  | activeTasks | queueDepth | completed | failed | executionDurationMs | saturationRatio
  deriving DecidableEq

def ProcessorMetric.all : List ProcessorMetric :=
  [.activeTasks, .queueDepth, .completed, .failed, .executionDurationMs, .saturationRatio]

def ProcessorMetric.family : ProcessorMetric → Family
  | .activeTasks => ⟨"jaiva_processor_active_tasks", .gauge, "Active tasks by processor."⟩
  | .queueDepth => ⟨"jaiva_processor_queue_depth", .gauge, "Queued packets by processor."⟩
  | .completed => ⟨"jaiva_processor_completed_total", .counter, "Successful packets by processor."⟩
  | .failed => ⟨"jaiva_processor_failed_total", .counter, "Failed packets by processor."⟩
  | .executionDurationMs =>
    ⟨"jaiva_processor_execution_milliseconds_total", .counter, "Execution time by processor."⟩
  | .saturationRatio =>
    ⟨"jaiva_processor_saturation_ratio", .gauge, "Active tasks divided by configured concurrency."⟩

/-- The fields of `ProcessorSummary` labelled with the flow as well. -/
inductive FlowProcessorMetric
  | records | executionDurationSeconds | failed
  deriving DecidableEq

def FlowProcessorMetric.all : List FlowProcessorMetric :=
  [.records, .executionDurationSeconds, .failed]

def FlowProcessorMetric.family : FlowProcessorMetric → Family
  | .records => ⟨"jaiva_processor_records_total", .counter, "Records processed successfully."⟩
  | .executionDurationSeconds =>
    ⟨"jaiva_processor_duration_seconds", .counter,
      "Cumulative processor execution time in seconds."⟩
  | .failed => ⟨"jaiva_processor_errors_total", .counter, "Failed processor executions."⟩

/-- The fields of `ConnectionQueueSummary`. -/
inductive QueueMetric
  | packets | bytes
  deriving DecidableEq

def QueueMetric.all : List QueueMetric :=
  [.packets, .bytes]

def QueueMetric.family : QueueMetric → Family
  | .packets => ⟨"jaiva_queue_packets", .gauge, "Current queued packets by flow connection."⟩
  | .bytes => ⟨"jaiva_queue_bytes", .gauge, "Estimated queued bytes by flow connection."⟩

/-- The fields of `FlowSummary` labelled with the flow. -/
inductive FlowMetric
  | flowStatus | flowLastSuccessTimestamp
  deriving DecidableEq

def FlowMetric.all : List FlowMetric :=
  [.flowStatus, .flowLastSuccessTimestamp]

def FlowMetric.family : FlowMetric → Family
  | .flowStatus =>
    ⟨"jaiva_flow_status", .gauge,
      "Flow lifecycle: 0 stopped, 1 starting, 2 running, 3 paused, 4 draining, 5 failed."⟩
  | .flowLastSuccessTimestamp =>
    ⟨"jaiva_flow_last_success_timestamp", .gauge,
      "Unix timestamp of the last successful flow execution."⟩

inductive Metric
  | total (t : Total)
  | memory (t : MemoryTotal)
  | processor (t : ProcessorMetric)
  | flowProcessor (t : FlowProcessorMetric)
  | queue (t : QueueMetric)
  | flow (t : FlowMetric)
  deriving DecidableEq

namespace Metric

def family : Metric → Family
  | .total t => t.family
  | .memory t => t.family
  | .processor t => t.family
  | .flowProcessor t => t.family
  | .queue t => t.family
  | .flow t => t.family

def name (m : Metric) : String := m.family.name

def all : List Metric :=
  Total.all.map .total ++ MemoryTotal.all.map .memory ++ ProcessorMetric.all.map .processor ++
    FlowProcessorMetric.all.map .flowProcessor ++ QueueMetric.all.map .queue ++ FlowMetric.all.map .flow

theorem mem_all (m : Metric) : m ∈ all := by
  cases m with
  | total t => cases t <;> decide
  | memory t => cases t <;> decide
  | processor t => cases t <;> decide
  | flowProcessor t => cases t <;> decide
  | queue t => cases t <;> decide
  | flow t => cases t <;> decide

/-- The bytes of a name read as one number, by which two names are told apart. -/
def checksum (name : String) : ℕ := name.toUTF8.data.toList.foldl (fun n b => 31 * n + b.toNat) 0

theorem nodup_checksums : (all.map fun m => checksum m.name).Nodup := by
  decide +kernel

theorem name_injective : Function.Injective name := fun a b h =>
  List.inj_on_of_nodup_map nodup_checksums (mem_all a) (mem_all b) (congrArg checksum h)

end Metric

/-! ### Texts of one line -/

def Plain (s : String) : Prop := ∀ c ∈ s.toList, c ≠ '\n' ∧ c ≠ '\r'

/-- A name: it does not begin as a comment and has no blank. -/
structure Word (s : String) : Prop where
  starts : ∃ rest, s.toList = 'j' :: rest
  unbroken : ∀ c ∈ s.toList, c ≠ ' '
  plain : Plain s

theorem plain_ofList {cs : List Char} (h : (cs.all fun c => c != '\n' && c != '\r') = true) :
    Plain (String.ofList cs) := by
  intro c hc
  rw [String.toList_ofList] at hc
  simpa using List.all_eq_true.mp h c hc

theorem word_ofList {cs : List Char}
    (h : (cs.all fun c => c != '\n' && c != '\r' && c != ' ') = true) :
    Word (String.ofList ('j' :: cs)) := by
  have hall : ∀ c ∈ 'j' :: cs, (c ≠ '\n' ∧ c ≠ '\r') ∧ c ≠ ' ' := by
    intro c hc
    rcases List.mem_cons.mp hc with rfl | hc
    · decide
    · simpa using List.all_eq_true.mp h c hc
  constructor
  · exact ⟨cs, String.toList_ofList⟩
  · intro c hc
    rw [String.toList_ofList] at hc
    exact (hall c hc).2
  · intro c hc
    rw [String.toList_ofList] at hc
    exact (hall c hc).1

theorem word_name (m : Metric) : Word m.name := by
  cases m with
  | total t => cases t <;> exact word_ofList rfl
  | memory t => cases t <;> exact word_ofList rfl
  | processor t => cases t <;> exact word_ofList rfl
  | flowProcessor t => cases t <;> exact word_ofList rfl
  | queue t => cases t <;> exact word_ofList rfl
  | flow t => cases t <;> exact word_ofList rfl

theorem plain_help (m : Metric) : Plain m.family.help := by
  cases m with
  | total t => cases t <;> exact plain_ofList rfl
  | memory t => cases t <;> exact plain_ofList rfl
  | processor t => cases t <;> exact plain_ofList rfl
  | flowProcessor t => cases t <;> exact plain_ofList rfl
  | queue t => cases t <;> exact plain_ofList rfl
  | flow t => cases t <;> exact plain_ofList rfl

theorem plain_kind (k : Kind) : Plain k.text := by
  cases k <;> exact plain_ofList rfl

/-- A value as it is printed. -/
structure Decimal where
  text : String
  plain : Plain text

def Decimal.ofNat (n : ℕ) : Decimal where
  text := toString n
  plain := by
    intro c hc
    have hmem : c ∈ Nat.toDigits 10 n := by simpa [Nat.repr] using hc
    have hdigit : c.isDigit = true := Nat.isDigit_of_mem_toDigits (by decide) (by decide) hmem
    constructor <;> rintro rfl <;> exact absurd hdigit (by decide)

/-! ### Lines -/

inductive Label
  | flow | processor | connection
  deriving DecidableEq

def Label.text : Label → String
  | .flow => "flow"
  | .processor => "processor"
  | .connection => "connection"

inductive Line
  | help (m : Metric)
  | type (m : Metric)
  | sample (m : Metric) (labels : List (Label × String)) (value : Decimal)

def replace (c : Char) (cs : List Char) (value : List Char) : List Char :=
  value.flatMap fun d => if d = c then cs else [d]

def escapeLabel (value : String) : List Char :=
  replace '\n' ['\\', 'n'] (replace '"' ['\\', '"'] (replace '\\' ['\\', '\\'] value.toList))

def labelText (label : Label × String) : List Char :=
  label.1.text.toList ++ '=' :: '"' :: (escapeLabel label.2 ++ ['"'])

def labelsText : List (Label × String) → List Char
  | [] => []
  | labels => '{' :: ([','].intercalate (labels.map labelText) ++ ['}'])

def helpMark : List Char := "# HELP ".toList

def typeMark : List Char := "# TYPE ".toList

def Line.text : Line → List Char
  | .help m => helpMark ++ m.name.toList ++ ' ' :: m.family.help.toList
  | .type m => typeMark ++ m.name.toList ++ ' ' :: m.family.kind.text.toList
  | .sample m labels value => m.name.toList ++ labelsText labels ++ ' ' :: value.text.toList

def render (ls : List Line) : List Char := ls.flatMap fun l => l.text ++ ['\n']

/-! ### The text of a flow -/

structure ProcessorSummary where
  activeTasks : ℕ
  queueDepth : ℕ
  completed : ℕ
  records : ℕ
  failed : ℕ
  executionDurationMs : ℕ
  executionDurationSeconds : Decimal
  saturationRatio : Decimal

def ProcessorSummary.value (p : ProcessorSummary) : ProcessorMetric → Decimal
  | .activeTasks => .ofNat p.activeTasks
  | .queueDepth => .ofNat p.queueDepth
  | .completed => .ofNat p.completed
  | .failed => .ofNat p.failed
  | .executionDurationMs => .ofNat p.executionDurationMs
  | .saturationRatio => p.saturationRatio

def ProcessorSummary.flowValue (p : ProcessorSummary) : FlowProcessorMetric → Decimal
  | .records => .ofNat p.records
  | .executionDurationSeconds => p.executionDurationSeconds
  | .failed => .ofNat p.failed

structure ConnectionQueueSummary where
  packets : ℕ
  bytes : ℕ

def ConnectionQueueSummary.value (q : ConnectionQueueSummary) : QueueMetric → Decimal
  | .packets => .ofNat q.packets
  | .bytes => .ofNat q.bytes

structure FlowSummary where
  flowId : String
  flowStatus : ℕ
  flowLastSuccessTimestamp : ℕ
  totals : Total → ℕ
  processors : OrderedDict String ProcessorSummary
  connectionQueues : OrderedDict String ConnectionQueueSummary
  domainMemory : Option (MemoryTotal → ℕ)

def FlowSummary.value (s : FlowSummary) : FlowMetric → Decimal
  | .flowStatus => .ofNat s.flowStatus
  | .flowLastSuccessTimestamp => .ofNat s.flowLastSuccessTimestamp

def header (m : Metric) : List Line := [.help m, .type m]

def block (m : Metric) (labels : List (Label × String)) (value : Decimal) : List Line :=
  header m ++ [.sample m labels value]

def processorSamples (flow : String) (e : String × ProcessorSummary) : List Line :=
  (ProcessorMetric.all.map fun t => .sample (.processor t) [(.processor, e.1)] (e.2.value t)) ++
    FlowProcessorMetric.all.map fun t =>
      .sample (.flowProcessor t) [(.flow, flow), (.processor, e.1)] (e.2.flowValue t)

def queueSamples (flow : String) (e : String × ConnectionQueueSummary) : List Line :=
  QueueMetric.all.map fun t =>
    .sample (.queue t) [(.flow, flow), (.connection, e.1)] (e.2.value t)

/-- The lines of the summary of one flow. -/
def body (s : FlowSummary) : List Line :=
  (Total.all.flatMap fun t => block (.total t) [] (.ofNat (s.totals t))) ++
    (ProcessorMetric.all.flatMap fun t => header (.processor t)) ++
    (s.domainMemory.elim [] fun jme =>
      MemoryTotal.all.flatMap fun t => block (.memory t) [] (.ofNat (jme t))) ++
    (FlowProcessorMetric.all.flatMap fun t => header (.flowProcessor t)) ++
    s.processors.entries.flatMap (processorSamples s.flowId) ++
    (QueueMetric.all.flatMap fun t => header (.queue t)) ++
    s.connectionQueues.entries.flatMap (queueSamples s.flowId) ++
    FlowMetric.all.flatMap fun t => block (.flow t) [(.flow, s.flowId)] (s.value t)

def prometheus (s : FlowSummary) : List Char := render (body s)

end Jaiba.Engine.Metrics
