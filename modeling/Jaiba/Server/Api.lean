import Mathlib.Data.List.Infix
import Jaiba.Repository.Queries
import Jaiba.Server.Auth
import Jaiba.Server.Ownership
import Jaiba.Server.Scheduler

/-!
# The routes of the control plane (`jaiba-server/src/observability.rs`)

A handler authorizes its request first. Then it calls the registry, the
scheduler, a supervisor or a repository, and other requests go on at its awaits.
-/

namespace Jaiba.Server.Api
open Jaiba.Lib Jaiba.Repository Jaiba.Server.Auth

/-- What is read here of a flow in YAML; `repository` is the database where it
is enabled. -/
structure FlowConfig where
  id : String
  processors : ℕ
  connections : ℕ
  repository : Option String
  deriving Repr, DecidableEq

/-- What comes from other crates: `serde_yaml`, the digests and the text of
`flows.json`; `check` is `parse_and_validate` after it has looked at the id. -/
structure Codec where
  checksum : String → String
  sha256 : Bytes → Bytes
  config : String → Except FlowError FlowConfig
  check : String → Except FlowError Unit
  encode : List FlowRecord → List UInt8

namespace Codec
variable (codec : Codec)

def draftFlowId (body : String) : Except FlowError String :=
  match codec.config body with
  | .error e => .error e
  | .ok config =>
    let id := trimmed config.id
    if id.isEmpty then .error (.configuration "flow id cannot be empty") else .ok id

def parseAndValidate (body : String) : Except FlowError FlowConfig :=
  match codec.config body with
  | .error e => .error e
  | .ok config =>
    if (trimmed config.id).isEmpty then .error (.configuration "flow id cannot be empty")
    else
      match codec.check body with
      | .error e => .error e
      | .ok _ => .ok config

/-- What the registry takes. -/
def registry : Server.Codec where
  checksum := codec.checksum
  flowId := fun source => (codec.config source).map fun config => trimmed config.id
  parse := fun source => (codec.parseAndValidate source).map fun config => config.repository.isSome
  encode := codec.encode

end Codec

/-- A route with what it takes from the path, the query and the body. -/
inductive Route where
  | listFlows
  | createFlow (body : String)
  | validateFlow (body : String)
  | getFlow (id : String)
  | deployFlow (id : String) (start : Bool) (body : String)
  | listVersions (id : String)
  | exportVersion (id : String) (version : ℕ)
  | validateVersion (id : String) (version : ℕ)
  | deployVersion (id : String) (version : ℕ) (start : Bool)
  | archiveVersion (id : String) (version : ℕ)
  | rollbackFlow (id : String) (start : Bool)
  | startFlow (id : String)
  | triggerFlow (id : String)
  | pauseFlow (id : String)
  | resumeFlow (id : String)
  | drainFlow (id : String)
  | stopFlow (id : String)
  | prometheus
  | provenance (flow packetId : Option String) (limit : Option ℕ)
  | deadLetters (flow : Option String) (limit : Option ℕ)
  | replayDeadLetter (queueId : String) (flow : Option String)
  deriving Repr, DecidableEq

namespace Route

def permission : Route → Permission
  | listFlows | getFlow _ | listVersions _ | exportVersion .. | prometheus | provenance ..
  | deadLetters .. => .read
  | _ => .operate

/-- The flow in the path. -/
def pathFlow : Route → Option String
  | getFlow id | deployFlow id .. | listVersions id | exportVersion id _ | validateVersion id _
  | deployVersion id .. | archiveVersion id _ | rollbackFlow id _ | startFlow id | triggerFlow id
  | pauseFlow id | resumeFlow id | drainFlow id | stopFlow id => some id
  | _ => none

end Route

inductive Body where
  | message (text : String)
  | records (records : List FlowRecord)
  | created (flowId : String) (version : ℕ)
  | validation (flowId : String) (processors connections : ℕ)
  | snapshot (supervisor : ℕ)
  | record (record : FlowRecord)
  | versions (versions : List FlowVersion)
  | yaml (source : String)
  | view (record : FlowRecord) (runtime : Option ℕ)
  | metrics (supervisors : List ℕ)
  | provenance (entries : List (ℕ × Provenance))
  | deadLetters (entries : List DeadLetterEntry)

structure Response where
  status : ℕ
  body : Body

def refused (r : Refusal) : Response := ⟨r.status, .message r.message⟩

def conflict (message : String) : Response := ⟨409, .message message⟩

def notFound (message : String) : Response := ⟨404, .message message⟩

def internal : Response := ⟨500, .message "internal operation failed"⟩

def configurationError (error : FlowError) : Response := ⟨422, .message error.text⟩

def registryError (error : RegistryError) : Response :=
  match error with
  | .notFound m => ⟨404, .message m⟩
  | .invalidState m | .limitExceeded m => ⟨409, .message m⟩
  | .validation e => ⟨422, .message e.text⟩
  | .internal e => ⟨500, .message e.text⟩

/-- What a handler tells a supervisor. -/
inductive Operation where
  | start | trigger | pause | resume | drain
  deriving Repr, DecidableEq

/-- What a handler asks of a repository. -/
inductive Lookup where
  | provenance (packetId : Option String) (limit : Option ℕ)
  | deadLetters (limit : Option ℕ)
  | replay (queueId : String)
  deriving Repr, DecidableEq

/-- Where a handler waits; `k` is a call of the registry, `c` one of the scheduler. -/
inductive Stage where
  | creating (k : ℕ)
  | drafting (k : ℕ) (id : String) (start : Bool)
  | validating (k : ℕ) (id : String) (version : ℕ) (start : Bool)
  /-- `build_resolver` -/
  | resolving (id : String) (start : Bool) (request : Server.Request)
  | deploying (k : ℕ) (id : String) (start : Bool)
  | reporting (k : ℕ)
  | viewing (id : String) (record : FlowRecord)
  | operating (id : String) (supervisor : ℕ) (operation : Operation)
  | triggered (id : String)
  | syncing (c : ℕ) (supervisor : ℕ)
  | disarming (c : ℕ) (id : String)
  | stopping (k : ℕ)
  | repository (id : String) (lookup : Lookup)
  | querying (database : String) (id : String) (lookup : Lookup)
  | done (response : Response)

/-- A request and where its handler is; `ctx` is `none` where it was turned away
for its token. -/
structure Session where
  ctx : Option AuthContext
  route : Route
  stage : Stage

/-- `told` are the operations the supervisors were told, in order; `owner` is a
mark of the model: for which flow each supervisor was made. -/
structure AppState where
  registry : Registry
  owner : Owner
  scheduler : FlowScheduler.State
  databases : String → Database
  told : List (String × ℕ × Operation)
  sessions : List Session

/-- What a wait comes back with: the time, an error, and the answer of an
operation that is not always valid. -/
structure Answer where
  now : ℤ
  fault : Option FlowError
  valid : Bool
  deriving Repr, DecidableEq

section handlers
variable (codec : Codec) (s : AppState) (ctx : AuthContext)

/-- `authorize_perm`, and `authorize_flow` where the flow is in the path. -/
def authorize (admin : AdminAccess) (c : Credentials) (route : Route) : Except Refusal AuthContext :=
  match route.pathFlow with
  | none => authorizePerm codec.sha256 admin c route.permission
  | some id => authorizeFlow codec.sha256 admin c route.permission id

/-- The entry of a flow in `running`. -/
def running? (id : String) : Option RunningFlow := Dict.get? s.registry.running id

def repository? (id : String) : Option String :=
  (running? s id).bind fun e => (codec.config e.source).toOption.bind FlowConfig.repository

/-- `sole_running_id` -/
def soleRunningId : Option String :=
  match s.registry.running.rows with
  | [e] => some e.1
  | _ => none

/-- A call of the registry begins. -/
def AppState.call (request : Server.Request) : AppState :=
  { s with registry := s.registry.accept request }

def AppState.schedule (call : FlowScheduler.Call) : AppState :=
  { s with scheduler := { s.scheduler with calls := s.scheduler.calls ++ [call] } }

def AppState.tell (id : String) (supervisor : ℕ) (operation : Operation) : AppState :=
  { s with told := s.told ++ [(id, supervisor, operation)] }

def outside : Stage := .done (refused outsideAllowlist)

def mutateSync (id : String) (operation : Operation) : AppState × Stage :=
  match running? s id with
  | none => (s, .done (notFound "flow is not running"))
  | some e => (s.tell id e.supervisor operation, .operating id e.supervisor operation)

/-- `resolve_target_flow` and the check of its allowlist. -/
def lookupFlow (flow : Option String) (lookup : Lookup) : AppState × Stage :=
  match flow.or (soleRunningId s) with
  | none => (s, .done (refused (unavailable "no flow with a persistent repository is available")))
  | some id => if ctx.allowsProject id then (s, .repository id lookup) else (s, outside)

/-- A handler after its authorization, up to its first await. -/
def handle : Route → AppState × Stage
  | .listFlows =>
    (s, .done ⟨200, .records ((sorted s.registry.records).filter fun r => ctx.allowsProject r.id)⟩)
  | .createFlow body =>
    match codec.draftFlowId body with
    | .error e => (s, .done (configurationError e))
    | .ok id =>
      if ctx.allowsProject id then
        (s.call (.createDraft body none), .creating s.registry.calls.length)
      else (s, outside)
  | .validateFlow body =>
    match codec.parseAndValidate body with
    | .error e => (s, .done (configurationError e))
    | .ok config =>
      if ctx.allowsProject config.id then
        (s, .done ⟨200, .validation config.id config.processors config.connections⟩)
      else (s, outside)
  | .getFlow id =>
    match Dict.get? s.registry.records id with
    | none => (s, .done (notFound "flow was not found"))
    | some record => (s, .viewing id record)
  | .deployFlow id start body =>
    match codec.parseAndValidate body with
    | .error e => (s, .done (configurationError e))
    | .ok config =>
      if config.id ≠ id then
        (s, .done (configurationError (.configuration ("flow id '" ++ config.id ++
          "' does not match URL id '" ++ id ++ "'"))))
      else (s.call (.createDraft body none), .drafting s.registry.calls.length id start)
  | .listVersions id =>
    match Dict.get? s.registry.records id with
    | none => (s, .done (notFound "flow was not found"))
    | some record => (s, .done ⟨200, .versions record.versions⟩)
  | .exportVersion id version =>
    match (Dict.get? s.registry.records id).bind fun r => r.version? version with
    | none => (s, .done (notFound "flow version was not found"))
    | some v => (s, .done ⟨200, .yaml v.source⟩)
  | .validateVersion id version =>
    (s.call (.validateVersion id version), .reporting s.registry.calls.length)
  | .deployVersion id version start => (s, .resolving id start (.deployVersion id version start))
  | .archiveVersion id version =>
    (s.call (.archiveVersion id version), .reporting s.registry.calls.length)
  | .rollbackFlow id start => (s, .resolving id start (.rollback id start))
  | .startFlow id => mutateSync s id .start
  | .triggerFlow id =>
    match running? s id with
    | none => (s, .done (notFound ("flujo '" ++ id ++ "' no está cargado en runtime")))
    | some e => (s.tell id e.supervisor .trigger, .operating id e.supervisor .trigger)
  | .pauseFlow id => mutateSync s id .pause
  | .resumeFlow id => mutateSync s id .resume
  | .drainFlow id => mutateSync s id .drain
  | .stopFlow id => (s.schedule ⟨id, false, .disarm none⟩, .disarming s.scheduler.calls.length id)
  | .prometheus =>
    (s, .done ⟨200, .metrics ((s.registry.running.rows.filter fun e => ctx.allowsProject e.1).map
      fun e => e.2.supervisor)⟩)
  | .provenance flow packetId limit => lookupFlow s ctx flow (.provenance packetId limit)
  | .deadLetters flow limit => lookupFlow s ctx flow (.deadLetters limit)
  | .replayDeadLetter queueId flow => lookupFlow s ctx flow (.replay queueId)

/-- What a call of the registry has come back with. -/
def reply? (k : ℕ) : Option (Except RegistryError Reply) :=
  s.registry.calls[k]?.bind fun c =>
    match c.stage with
    | .done reply => some reply
    | _ => none

/-- The calls of the scheduler that have returned. -/
def scheduled (c : ℕ) : Bool := s.scheduler.calls[c]?.any fun call => call.stage = .done

/-- `sync_schedule` -/
def syncSchedule (id : String) (started : Bool) (supervisor : ℕ) : AppState × Stage :=
  (s.schedule (if started then ⟨id, true, .lookup⟩ else ⟨id, false, .disarm none⟩),
    .syncing s.scheduler.calls.length supervisor)

/-- The answer of a supervisor. -/
def operated (a : Answer) (id : String) (supervisor : ℕ) : Operation → AppState × Stage
  | .start =>
    match a.fault, a.valid with
    | some _, _ => (s, .done internal)
    | none, true => syncSchedule s id true supervisor
    | none, false => (s, .done (conflict "operation is not valid in the current flow state"))
  | .trigger =>
    match a.fault, a.valid with
    | some (.configuration m), _ =>
      if "no está cargado".toList <:+: m.toList then (s, .done (notFound m)) else (s, .done internal)
    | some _, _ => (s, .done internal)
    | none, true => (s, .triggered id)
    | none, false => (s, .done (conflict "trigger skipped because the flow is still running"))
  | .pause | .resume | .drain =>
    if a.valid then (s, .done ⟨200, .snapshot supervisor⟩)
    else (s, .done (conflict "operation is not valid in the current flow state"))

/-- The answer of a repository. -/
def queried (a : Answer) (database id : String) (lookup : Lookup) : AppState × Stage :=
  match a.fault with
  | some _ => (s, .done internal)
  | none =>
    let db := s.databases database
    match lookup with
    | .provenance (some packetId) limit =>
      (s, .done ⟨200, .provenance (db.provenanceForPacket id packetId (limit.getD 1000))⟩)
    | .provenance none limit => (s, .done ⟨200, .provenance (db.recentProvenance id (limit.getD 100))⟩)
    | .deadLetters limit =>
      match db.deadLetters id (limit.getD 100) with
      | .error _ => (s, .done internal)
      | .ok entries => (s, .done ⟨200, .deadLetters entries⟩)
    | .replay queueId =>
      let r := db.requeueDeadLetter a.now queueId
      ({ s with databases := Function.update s.databases database r.2 },
        .done (if r.1 then ⟨200, .message "dead-letter packet requeued"⟩
          else notFound "dead-letter packet was not found"))

/-- A handler up to its next await. -/
def resume (a : Answer) : Stage → Option (AppState × Stage)
  | .creating k =>
    match reply? s k with
    | some (.error e) => some (s, .done (registryError e))
    | some (.ok (.created id version)) => some (s, .done ⟨201, .created id version⟩)
    | _ => none
  | .drafting k id start =>
    match reply? s k with
    | some (.error e) => some (s, .done (registryError e))
    | some (.ok (.created _ version)) =>
      some (s.call (.validateVersion id version), .validating s.registry.calls.length id version start)
    | _ => none
  | .validating k id version start =>
    match reply? s k with
    | some (.error e) => some (s, .done (registryError e))
    | some (.ok (.record _)) => some (s, .resolving id start (.deployVersion id version start))
    | _ => none
  | .resolving id start request =>
    match a.fault with
    | some e => some (s, .done (configurationError e))
    | none => some (s.call request, .deploying s.registry.calls.length id start)
  | .deploying k id start =>
    match reply? s k with
    | some (.error e) => some (s, .done (registryError e))
    | some (.ok (.snapshot supervisor)) => some (syncSchedule s id start supervisor)
    | _ => none
  | .reporting k =>
    match reply? s k with
    | some (.error e) => some (s, .done (registryError e))
    | some (.ok (.record record)) => some (s, .done ⟨200, .record record⟩)
    | _ => none
  | .viewing id record =>
    some (s, .done ⟨200, .view record ((running? s id).map RunningFlow.supervisor)⟩)
  | .operating id supervisor operation => some (operated s a id supervisor operation)
  | .triggered id =>
    match running? s id with
    | none => some (s, .done (notFound "flow is not running"))
    | some e => some (s, .done ⟨200, .snapshot e.supervisor⟩)
  | .syncing c supervisor => if scheduled s c then some (s, .done ⟨200, .snapshot supervisor⟩) else none
  | .disarming c id =>
    if scheduled s c then some (s.call (.stopAndUnload id), .stopping s.registry.calls.length) else none
  | .stopping k =>
    match reply? s k with
    | some (.error e) => some (s, .done (registryError e))
    | some (.ok (.snapshot supervisor)) => some (s, .done ⟨200, .snapshot supervisor⟩)
    | _ => none
  | .repository id lookup =>
    match repository? codec s id with
    | none => some (s, .done (refused (unavailable "persistent repository is disabled")))
    | some database => some (s, .querying database id lookup)
  | .querying database id lookup => some (queried s a database id lookup)
  | .done _ => none

end handlers

inductive Action where
  | request (c : Credentials) (route : Route)
  | resume (j : ℕ) (a : Answer)
  | registry (i : ℕ) (input : Input)
  /-- an engine ends by itself -/
  | finish (supervisor : ℕ)
  | scheduler (a : FlowScheduler.Action)

def AppState.enter (s : AppState) (ctx : Option AuthContext) (route : Route) (stage : Stage) : AppState :=
  { s with sessions := s.sessions ++ [⟨ctx, route, stage⟩] }

def step (codec : Codec) (calendar : FlowScheduler.Calendar) (admin : AdminAccess) (s : AppState) :
    Action → Option AppState
  | .request c route =>
    match authorize codec admin c route with
    | .error refusal => some (s.enter none route (.done (refused refusal)))
    | .ok ctx =>
      let r := handle codec s ctx route
      some (r.1.enter ctx route r.2)
  | .resume j a =>
    s.sessions[j]?.bind fun x => (resume codec s a x.stage).map fun r =>
      { r.1 with sessions := s.sessions.set j { x with stage := r.2 } }
  | .registry i input =>
    s.registry.calls[i]?.bind fun c =>
      (s.registry.advance i codec.registry input c.stage).map fun t =>
        { s with
          registry := t
          owner := if t.supervisors = s.registry.supervisors then s.owner
            else s.owner.make s.registry.supervisors c.stage.maker }
  | .finish supervisor => some { s with registry := s.registry.kill supervisor }
  | .scheduler (.arm _) | .scheduler (.disarm _) => none
  | .scheduler a => (FlowScheduler.step calendar s.scheduler a).map fun t => { s with scheduler := t }

/-- The control plane under any number of concurrent requests. -/
def api (codec : Codec) (calendar : FlowScheduler.Calendar) (admin : AdminAccess) :
    Machine AppState Action := ⟨step codec calendar admin⟩

end Jaiba.Server.Api
