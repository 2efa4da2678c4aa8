import Jaiba.Editor.Settings

/-!
# Import of an export

The export of an edited canvas draws the edited canvas again, node by node and
edge by edge, with the settings that are in use.
-/

namespace Jaiba.Editor.Yaml
open Jaiba.Lib Jaiba.Lib.Value

/-! ### Flows that mean the same -/

def orFlujo (id : String) : String := if id = "" then "flujo" else id

def flowId (flow : FlowMeta) : String := orFlujo flow.id

theorem orFlujo_orFlujo (id : String) : orFlujo (orFlujo id) = orFlujo id := by
  by_cases h : id = ""
  · rw [h]
    rfl
  · have hsame : orFlujo id = id := if_neg h
    rw [hsame, hsame]

/-- Entries whose names are blank are not exported. -/
structure SameFlow (a b : FlowMeta) : Prop where
  id : flowId a = flowId b
  parameters : ∀ k, trim k ≠ "" → (a.parameters.find? fun p => p.name = k) = b.parameters.find? fun p => p.name = k
  databaseConnections : ∀ k, trim k ≠ "" →
    (a.databaseConnections.find? fun c => c.name = k) = b.databaseConnections.find? fun c => c.name = k
  kafkaConnections : ∀ k, trim k ≠ "" →
    (a.kafkaConnections.find? fun c => c.name = k) = b.kafkaConnections.find? fun c => c.name = k
  schedule : SameSchedule a.schedule b.schedule
  engine : a.engine = b.engine

structure SameCanvas (a b : Canvas) : Prop where
  flow : SameFlow a.flow b.flow
  nodes : List.Forall₂ (fun x y => SameData x.data y.data) a.nodes b.nodes
  edges : List.Forall₂ (SameEdge a.nodes b.nodes) a.edges b.edges

/-- What the checks of the editor and its controls ask of a canvas. -/
structure SoundCanvas (canvas : Canvas) : Prop where
  parameters : Distinct canvas.flow.parameters (·.name)
  databaseConnections : Distinct canvas.flow.databaseConnections (·.name)
  maxConnections : ∀ c ∈ canvas.flow.databaseConnections, Finite c.maxConnections
  kafkaConnections : Distinct canvas.flow.kafkaConnections (·.name)
  schedule : SoundSchedule canvas.flow.schedule
  engine : SoundEngine canvas.flow.engine
  nonempty : canvas.nodes ≠ []
  nodes : ∀ n ∈ canvas.nodes, SoundData n.data
  edges : ∀ e ∈ canvas.edges, connectionBlock canvas.nodes e ≠ none ∧ Finite (queueCapacityOf e)

/-- Objects that name each member once, processors with ids, and connections between them. -/
structure Importable (root : Members) : Prop where
  ids : ∀ p ∈ objectsOf (root.lookup "processors"), ∃ name, p.lookup "id" = some (.string name)
  configs : ∀ p ∈ objectsOf (root.lookup "processors"), (Members.keys (membersOf (p.lookup "config"))).Nodup
  names : ∀ k ∈ ["parameters", "database_connections", "kafka_connections"],
    (Members.keys (membersOf (root.lookup k))).Nodup
  connections : ∀ c ∈ objectsOf (root.lookup "connections"), Joined root c

/-! ### Lists that are written and read -/

theorem forall₂_mapIdx {α β : Type} {r : β → α → Prop} {f : ℕ → α → β} {l : List α}
    (h : ∀ i, ∀ x ∈ l, r (f i x) x) : List.Forall₂ r (l.mapIdx f) l := by
  induction l generalizing f with
  | nil => exact .nil
  | cons x l ih =>
    rw [List.mapIdx_cons]
    exact .cons (h 0 x List.mem_cons_self) (ih fun i y hy => h (i + 1) y (List.mem_cons_of_mem _ hy))

theorem mapIdx_map {α β γ : Type} (f : ℕ → β → γ) (g : α → β) (l : List α) :
    (l.map g).mapIdx f = l.mapIdx fun i x => f i (g x) := by
  refine List.ext_getElem? fun i => ?_
  rw [List.getElem?_mapIdx, List.getElem?_mapIdx, List.getElem?_map, Option.map_map]
  rfl

/-- Of items that are all written and all read, each is read as what was written. -/
theorem forall₂_written {α β γ : Type} {r : γ → α → Prop} {write : α → Option β} {read : ℕ → β → Option γ} {l : List α}
    (h : ∀ x ∈ l, ∃ b, write x = some b ∧ ∀ i, ∃ c, read i b = some c ∧ r c x) :
    List.Forall₂ r (((l.filterMap write).mapIdx read).filterMap id) l := by
  induction l generalizing read with
  | nil => exact .nil
  | cons x l ih =>
    obtain ⟨b, hb, hread⟩ := h x List.mem_cons_self
    obtain ⟨c, hc, hr⟩ := hread 0
    rw [List.filterMap_cons_some hb, List.mapIdx_cons, List.filterMap_cons_some (by rw [hc]; rfl)]
    refine .cons hr (ih fun y hy => ?_)
    obtain ⟨d, hd, hrest⟩ := h y (List.mem_cons_of_mem _ hy)
    exact ⟨d, hd, fun i => hrest (i + 1)⟩

theorem ids_of_forall₂ {xs ys : List ProcessorNode}
    (h : List.Forall₂ (fun x y => x.data.processorId = y.data.processorId) xs ys) :
    xs.map (fun n => n.data.processorId) = ys.map fun n => n.data.processorId := by
  induction h with
  | nil => rfl
  | cons hxy _ ih => rw [List.map_cons, List.map_cons, hxy, ih]

/-! ### The export of an edited canvas -/

section edited
variable {text : Value → String} {root : Members} {flow : FlowMeta} {nodes : List ProcessorNode}
  {edges : List ConnectionEdge} (hroot : Importable root) (hflow : flow.imported = some (importedOf text root))
  (hsound : SoundCanvas ⟨flow, nodes, edges⟩)

/-- The members of the export. -/
def exported (flow : FlowMeta) (nodes : List ProcessorNode) (edges : List ConnectionEdge) : Members :=
  membersOf (some (buildFlowObject flow nodes edges))

include hflow in
theorem exported_object : buildFlowObject flow nodes edges = .object (exported flow nodes edges) := by
  rw [exported, export_edited flow nodes edges hflow]
  rfl

include hflow in
theorem exported_lookup_processors :
    objectsOf ((exported flow nodes edges).lookup "processors") =
      nodes.map fun n => membersOf (some (exportProcessor flow.imported n)) := by
  rw [exported, export_edited flow nodes edges hflow, membersOf, Members.lookup_put, if_neg (by decide),
    Members.lookup_put, if_pos rfl, objectsOf, itemsOf, List.map_map]
  rfl

include hflow in
theorem exported_lookup_connections :
    objectsOf ((exported flow nodes edges).lookup "connections") =
      (edges.filterMap (exportConnection flow.imported nodes)).map fun v => membersOf (some v) := by
  rw [exported, export_edited flow nodes edges hflow, membersOf, Members.lookup_put, if_pos rfl, objectsOf, itemsOf]

include hroot hflow hsound in
theorem nodes_again :
    List.Forall₂ (fun x y => SameData x.data y.data) (readNodes (exported flow nodes edges)) nodes := by
  rw [readNodes, exported_lookup_processors hflow, mapIdx_map]
  refine forall₂_mapIdx fun j n hn => ?_
  obtain ⟨i, source, ms, hms, hsettled, hsource⟩ := exportProcessor_settled hflow n
  rw [hms]
  refine hsettled.sameData ?_ ?_ (hsound.nodes n hn) j
  · rcases hsource with hmem | rfl
    · exact hroot.ids source hmem
    · exact ⟨"", rfl⟩
  · rcases hsource with hmem | rfl
    · exact hroot.configs source hmem
    · exact .nil

include hroot hflow hsound in
theorem edges_again :
    List.Forall₂ (SameEdge (readNodes (exported flow nodes edges)) nodes) (readEdges (exported flow nodes edges))
      edges := by
  have hids : ∀ n ∈ nodes, n.data.processorId ∈
      (readNodes (exported flow nodes edges)).map fun n => n.data.processorId := by
    intro n hn
    rw [ids_of_forall₂ ((nodes_again hroot hflow hsound).imp fun _ _ h => h.processorId)]
    exact List.mem_map_of_mem hn
  rw [readEdges, exported_lookup_connections hflow, mapIdx_map]
  refine forall₂_written fun e he => ?_
  obtain ⟨hexported, hcapacity⟩ := hsound.edges e he
  obtain ⟨current, hcurrent⟩ := Option.ne_none_iff_exists'.mp hexported
  obtain ⟨source, drawn, ms, hms, hsettled, hdrawn⟩ := exportConnection_settled hflow hroot.connections hcurrent
  exact ⟨_, hms, fun j => hsettled.sameEdge hcurrent hdrawn hcapacity hids j⟩

include hflow in
theorem exported_lookup {key : String} (hp : key ≠ "processors") (hc : key ≠ "connections") :
    (exported flow nodes edges).lookup key =
      mergeAt identity (root.lookup key)
        ((membersOf (some (drawnFlow (readFlow text root) (readNodes root) []))).lookup key)
        ((membersOf (some (drawnFlow flow nodes []))).lookup key) :=
  export_member flow nodes edges hflow hp hc

theorem drawn_lookup (flow : FlowMeta) (nodes : List ProcessorNode) {k : String} {v : Option Value}
    (h : ([("id", some (Value.string (flowId flow))),
      ("parameters", if flow.parameters ≠ [] then
        some (named flow.parameters (·.name) fun p => .string p.value) else none),
      ("database_connections", if flow.databaseConnections ≠ [] then
        some (named flow.databaseConnections (·.name) fun c => .object [("type", .string c.type),
          ("url_env", .string c.urlEnv), ("max_connections", .number c.maxConnections)]) else none),
      ("kafka_connections", if flow.kafkaConnections ≠ [] then
        some (named flow.kafkaConnections (·.name) fun c => .object [("brokers_env", .string c.brokersEnv),
          ("client_id", .string c.clientId)]) else none),
      ("schedule", scheduleBlock flow.schedule), ("engine", some (engineBlock flow.engine)),
      ("processors", some (.array (nodes.map fun node => .object (processorBlock node.data)))),
      ("connections", none)].lookup k).join = v) :
    (membersOf (some (drawnFlow flow nodes []))).lookup k = v := by
  dsimp only [drawnFlow, membersOf]
  rw [lookup_block (by simp [Members.keys])]
  exact h

include hroot hflow hsound in
theorem flow_again : SameFlow (readFlow text (exported flow nodes edges)) flow := by
  have hlookup := fun key hp hc => @exported_lookup text root flow nodes edges hflow key hp hc
  refine ⟨?_, fun k hk => ?_, fun k hk => ?_, fun k hk => ?_, ?_, ?_⟩
  · have hid := hlookup "id" (by decide) (by decide)
    rw [drawn_lookup _ _ rfl, drawn_lookup _ _ rfl] at hid
    exact Settled.drawn (fun v => orFlujo (stringOr v "flujo")) .string (.inl hid) trivial (.inr rfl)
      (orFlujo_orFlujo flow.id) SameText.string
  · have hparameters := hlookup "parameters" (by decide) (by decide)
    rw [drawn_lookup _ _ rfl, drawn_lookup _ _ rfl] at hparameters
    exact @named_read ParameterEntry (·.name) (fun p => .string p.value) (readParameter text) (fun _ => rfl) _ _
      (hroot.names "parameters" (by simp)) _ hsound.parameters hparameters
      (fun source p _ => parameter_read text source p) k hk
  · have hdatabases := hlookup "database_connections" (by decide) (by decide)
    rw [drawn_lookup _ _ rfl, drawn_lookup _ _ rfl] at hdatabases
    exact @named_read DatabaseConnection (·.name) (fun c => .object [("type", .string c.type),
        ("url_env", .string c.urlEnv), ("max_connections", .number c.maxConnections)])
      readDatabaseConnection (fun _ => rfl) _ _ (hroot.names "database_connections" (by simp)) _
      hsound.databaseConnections hdatabases
      (fun source c hc => database_read source c (hsound.maxConnections c hc)) k hk
  · have hkafka := hlookup "kafka_connections" (by decide) (by decide)
    rw [drawn_lookup _ _ rfl, drawn_lookup _ _ rfl] at hkafka
    exact @named_read KafkaConnection (·.name) (fun c => .object [("brokers_env", .string c.brokersEnv),
        ("client_id", .string c.clientId)])
      readKafkaConnection (fun _ => rfl) _ _ (hroot.names "kafka_connections" (by simp)) _
      hsound.kafkaConnections hkafka (fun source c _ => kafka_read source c) k hk
  · have hschedule := hlookup "schedule" (by decide) (by decide)
    rw [drawn_lookup _ _ rfl, drawn_lookup _ _ rfl] at hschedule
    exact schedule_read hsound.schedule hschedule
  · have hengine := hlookup "engine" (by decide) (by decide)
    rw [drawn_lookup _ _ rfl, drawn_lookup _ _ rfl] at hengine
    exact engine_read hsound.engine hengine

end edited

/-- The first processor gets another id and goes back to the default retries. -/
def renamed (canvas : Canvas) : Canvas :=
  { canvas with
    nodes := canvas.nodes.modifyHead fun n =>
      { n with data := { n.data with processorId := "leer_csv", retry := retryDefaults } } }

def sampleCanvas : Canvas :=
  ⟨{ readFlow (fun _ => "") sampleRoot with imported := some (importedOf (fun _ => "") sampleRoot) },
    readNodes sampleRoot, readEdges sampleRoot⟩

theorem importable_sample : Importable sampleRoot where
  ids := List.forall_mem_cons.mpr ⟨⟨_, rfl⟩, List.forall_mem_cons.mpr ⟨⟨_, rfl⟩, nofun⟩⟩
  configs := List.forall_mem_cons.mpr ⟨by decide, List.forall_mem_cons.mpr ⟨by decide, nofun⟩⟩
  names := List.forall_mem_cons.mpr ⟨.nil, List.forall_mem_cons.mpr ⟨.nil, List.forall_mem_cons.mpr ⟨.nil, nofun⟩⟩⟩
  connections := by
    refine List.forall_mem_cons.mpr ⟨?_, nofun⟩
    exact List.forall_mem_cons.mpr ⟨⟨_, rfl, by decide, by decide⟩,
      List.forall_mem_cons.mpr ⟨⟨_, rfl, by decide, by decide⟩, nofun⟩⟩

theorem renamed_nodes : (renamed sampleCanvas).nodes.map (·.data) =
    [⟨"leer_csv", "read_file", [("path", .string "x.csv")], retryDefaults, schedulingDefaults, simulationDefaults⟩,
      ⟨"grabar", "write_file", [], retryDefaults, schedulingDefaults, simulationDefaults⟩] := by decide +kernel

theorem renamed_edges : (renamed sampleCanvas).edges =
    [⟨"import_edge_0", "import_0_leer", "import_1_grabar", some ⟨.success, .finite 100⟩⟩] := by decide +kernel

theorem soundData_sample {data : ProcessorNodeData} (hconfig : (Members.keys data.config).Nodup)
    (hretry : data.retry = retryDefaults) (hscheduling : data.scheduling = schedulingDefaults) : SoundData data := by
  refine ⟨hconfig, ?_, ?_, ?_, ?_, ?_, ?_, ?_⟩
  · exact hretry ▸ ⟨_, rfl⟩
  · exact hretry ▸ ⟨_, rfl⟩
  · exact hretry ▸ ⟨_, rfl⟩
  · exact hscheduling ▸ ⟨_, rfl⟩
  · rw [hscheduling]
    nofun
  · rw [hscheduling]
    nofun
  · rw [hscheduling]
    nofun

theorem sound_sample : SoundCanvas (renamed sampleCanvas) where
  parameters := .nil
  databaseConnections := .nil
  maxConnections := nofun
  kafkaConnections := .nil
  schedule := ⟨⟨_, rfl⟩, nofun⟩
  engine := ⟨⟨_, rfl⟩, ⟨_, rfl⟩, ⟨_, rfl⟩⟩
  nonempty := nofun
  nodes := by
    intro n hn
    have hdata : n.data ∈ (renamed sampleCanvas).nodes.map (·.data) := List.mem_map_of_mem hn
    rw [renamed_nodes] at hdata
    simp only [List.mem_cons, List.not_mem_nil, or_false] at hdata
    rcases hdata with hdata | hdata
    · rw [hdata]
      exact soundData_sample (by decide) rfl rfl
    · rw [hdata]
      exact soundData_sample (by decide) rfl rfl
  edges := by
    intro e he
    rw [renamed_edges] at he
    rw [List.mem_singleton.mp he]
    exact ⟨by decide +kernel, ⟨_, rfl⟩⟩

end Jaiba.Editor.Yaml
