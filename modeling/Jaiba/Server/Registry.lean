import Mathlib.Logic.Function.Basic
import Jaiba.Lib.Machine
import Jaiba.Server.Records

/-!
# Flow registry (`jaiba-server/src/flow_registry.rs`)

Every call of an operation goes through a list of stages, one for each stretch
between two awaits; the stages of concurrent calls interleave. What an awaited
call returns is an input of the stage.
-/

namespace Jaiba.Server
open Jaiba.Lib

/-- What the registry takes from other crates: the digest, the id of a flow in
YAML (trimmed), whether a flow parses and validates, with its
`repository.enabled`, and the text of `flows.json`. -/
structure Codec where
  checksum : String → String
  flowId : String → Except FlowError String
  parse : String → Except FlowError Bool
  encode : List FlowRecord → List UInt8

/-- A running version; `supervisor` tells supervisors apart. -/
structure RunningFlow where
  version : ℕ
  source : String
  supervisor : ℕ
  deriving Repr, DecidableEq

/-- The data directory: file contents by inode, and the two names. -/
structure Disk where
  files : ℕ → List UInt8
  flows : Option ℕ
  tmp : Option ℕ
  inodes : ℕ

/-- The records as they were after a number of writes. -/
structure Snapshot where
  revision : ℕ
  records : List FlowRecord

/-- The arguments of `activate`. -/
structure Activation where
  id : String
  version : ℕ
  start : Bool
  allowArchived : Bool
  deriving Repr, DecidableEq

/-- What follows `persist`. -/
inductive After where
  | created (id : String) (version : ℕ)
  | report (id : String)
  | deployed (supervisor : ℕ)
  | seeded
  deriving Repr, DecidableEq

inductive Reply where
  | created (id : String) (version : ℕ)
  | record (record : FlowRecord)
  | snapshot (supervisor : ℕ)
  | seeded
  deriving Repr, DecidableEq

/-- The stage of a call. -/
inductive Stage where
  | createDraft (source : String) (note : Option String)
  | validate (id : String) (version : ℕ)
  | validateWrite (id : String) (version : ℕ)
  | archive (id : String) (version : ℕ)
  | archiveWrite (id : String) (version : ℕ)
  | deploy (id : String) (version : ℕ) (start : Bool)
  | rollback (id : String) (start : Bool)
  | selectTarget (id : String) (start : Bool)
  -- `activate`
  | source (a : Activation)
  | checkState (a : Activation) (source : String)
  | checkQuota (a : Activation) (source : String) (repository : Bool)
  | openRepository (a : Activation) (source : String) (repository : Bool)
  | drain (a : Activation) (source : String)
  | stop (a : Activation) (source : String) (previous : RunningFlow)
  | start (a : Activation) (source : String) (previous : Option RunningFlow)
  | restore (a : Activation) (previous : RunningFlow) (error : FlowError)
  | reinsert (a : Activation) (previous : RunningFlow) (error : FlowError)
  | insert (a : Activation) (source : String) (supervisor : ℕ)
  | record (a : Activation) (supervisor : ℕ)
  -- `stop_and_unload`
  | unload (id : String)
  | unloadStop (id : String) (previous : RunningFlow)
  | seed (id source : String) (supervisor : ℕ)
  | seedRunning (id source : String) (supervisor version : ℕ)
  -- `persist` and `write_atomic`
  | persist (after : After)
  | openTmp (after : After) (snapshot : Snapshot)
  | writeTmp (after : After) (snapshot : Snapshot) (inode : ℕ)
  | rename (after : After) (snapshot : Snapshot)
  | report (id : String)
  | done (reply : Except RegistryError Reply)

/-- A call; `wrote` is the revision of the records it wrote, a mark of the model. -/
structure Call where
  stage : Stage
  wrote : Option ℕ

/-- `live` are the supervisors whose engine is alive, each with its flow;
`revision` counts the writes to the records and `published` is what was last
renamed to `flows.json`, marks of the model. -/
structure Registry where
  persistent : Bool
  maxConcurrent : ℕ
  records : Records
  running : Dict String RunningFlow
  lock : Option ℕ
  live : List (ℕ × String)
  supervisors : ℕ
  disk : Disk
  calls : List Call
  revision : ℕ
  published : Snapshot

/-- What the awaited call of a stage gives: the time, the error of a supervisor
or repository call, and the error of a file operation with the bytes it wrote. -/
structure Input where
  now : ℕ
  fault : Option FlowError
  io : Option String
  written : ℕ

/-- The operations of the registry, with their arguments. -/
inductive Request where
  | createDraft (source : String) (note : Option String)
  | validateVersion (id : String) (version : ℕ)
  | archiveVersion (id : String) (version : ℕ)
  | deployVersion (id : String) (version : ℕ) (start : Bool)
  | rollback (id : String) (start : Bool)
  | stopAndUnload (id : String)
  /-- with a supervisor that is already started -/
  | seedRunning (id source : String)

inductive Action where
  | call (request : Request)
  | advance (i : ℕ) (input : Input)
  /-- an engine ends by itself -/
  | finish (supervisor : ℕ)

namespace Registry

/-- `new`; at least one flow may run. -/
def create (persistent : Bool) (maxConcurrent : ℕ) : Registry where
  persistent := persistent
  maxConcurrent := max maxConcurrent 1
  records := Dict.empty
  running := Dict.empty
  lock := none
  live := []
  supervisors := 0
  disk := ⟨fun _ => [], none, none, 0⟩
  calls := []
  revision := 0
  published := ⟨0, []⟩

variable (s : Registry) (i : ℕ)

def goto (stage : Stage) : Registry :=
  { s with calls := s.calls.modify i fun c => { c with stage := stage } }

/-- The call returns; it lets go of the deployment lock if it holds it. -/
def finish (reply : Except RegistryError Reply) : Registry :=
  { s.goto i (.done reply) with lock := if s.lock = some i then none else s.lock }

/-- The record of a flow is written. -/
def write (id : String) (record : FlowRecord) (stage : Stage) : Registry :=
  { s with
    records := Dict.insert s.records id record
    revision := s.revision + 1
    calls := s.calls.modify i fun _ => ⟨stage, some (s.revision + 1)⟩ }

def unknownFlow (id : String) : RegistryError := .notFound ("flujo '" ++ id ++ "' no encontrado")

def unknownVersion (version : ℕ) : RegistryError :=
  .notFound ("versión " ++ toString version ++ " no encontrada")

/-- `version_source`. -/
def versionSource (id : String) (version : ℕ) : Except RegistryError String :=
  match Dict.get? s.records id with
  | none => .error (unknownFlow id)
  | some r =>
    match r.version? version with
    | none => .error (unknownVersion version)
    | some v => .ok v.source

/-- An engine ends or is joined. -/
def kill (supervisor : ℕ) : Registry :=
  { s with live := s.live.filter fun e => e.1 ≠ supervisor }

/-- A new supervisor for a flow, its engine started. -/
def spawn (id : String) : Registry :=
  { s with live := s.live ++ [(s.supervisors, id)], supervisors := s.supervisors + 1 }

def setRunning (id : String) (entry : RunningFlow) : Registry :=
  { s with running := Dict.insert s.running id entry }

def unsetRunning (id : String) : Registry := { s with running := Dict.erase s.running id }

/-- What follows a `persist` that has succeeded. -/
def persisted : After → Registry
  | .created id version => s.finish i (.ok (.created id version))
  | .report id => s.goto i (.report id)
  | .deployed supervisor => s.finish i (.ok (.snapshot supervisor))
  | .seeded => s.finish i (.ok .seeded)

/-- What follows a `persist` that has failed; `activate` only logs the error. -/
def unpersisted (error : RegistryError) : After → Registry
  | .deployed supervisor => s.finish i (.ok (.snapshot supervisor))
  | _ => s.finish i (.error error)

def notSerialized (error : String) : RegistryError :=
  .internal (.server ("no se pudo serializar el registro de flujos: " ++ error))

def notPersisted (error : String) : RegistryError :=
  .internal (.server ("no se pudo persistir el registro de flujos: " ++ error))

/-- `rename` and `set_permissions` of a file that is gone. -/
def noSuchFile : String := "No such file or directory (os error 2)"

variable (codec : Codec) (input : Input)

/-- The stages up to the write of the records. -/
def stepRecords : Stage → Option Registry
  | .createDraft source note =>
    match codec.flowId source with
    | .error e => some (s.finish i (.error (.validation e)))
    | .ok id =>
      if id.isEmpty then
        some (s.finish i (.error (.validation (.configuration
          "el id del flujo no puede estar vacío"))))
      else
        let record := (Dict.get? s.records id).getD (.fresh id input.now)
        some (s.write i id (record.draft source (codec.checksum source) note input.now)
          (.persist (.created id record.nextVersion)))
  | .validate id version =>
    match s.versionSource id version with
    | .error e => some (s.finish i (.error e))
    | .ok source =>
      match codec.parse source with
      | .error e => some (s.finish i (.error (.validation e)))
      | .ok _ => some (s.goto i (.validateWrite id version))
  | .validateWrite id version =>
    match Dict.get? s.records id with
    | none => some (s.finish i (.error (unknownFlow id)))
    | some r =>
      match r.version? version with
      | none => some (s.finish i (.error (unknownVersion version)))
      | some v =>
        if v.state = .archived then
          some (s.finish i (.error (.invalidState "no se puede validar una versión archivada")))
        else some (s.write i id (r.validated version input.now) (.persist (.report id)))
  | .archive id version =>
    if (Dict.get? s.running id).map RunningFlow.version = some version then
      some (s.finish i (.error (.invalidState
        "no se puede archivar la versión en ejecución; detén el flujo primero")))
    else some (s.goto i (.archiveWrite id version))
  | .archiveWrite id version =>
    match Dict.get? s.records id with
    | none => some (s.finish i (.error (unknownFlow id)))
    | some r =>
      match r.version? version with
      | none => some (s.finish i (.error (unknownVersion version)))
      | some _ => some (s.write i id (r.archived version input.now) (.persist (.report id)))
  | .seed id source supervisor =>
    let record := (Dict.get? s.records id).getD (.fresh id input.now)
    some (s.write i id (record.seeded source (codec.checksum source) input.now)
      (.seedRunning id source supervisor record.nextVersion))
  | .seedRunning id source supervisor version =>
    some ((s.setRunning id ⟨version, source, supervisor⟩).goto i (.persist .seeded))
  | _ => none

/-- `deploy_version`, `rollback` and the stages of `activate` before anything is
stopped. -/
def stepCheck : Stage → Option Registry
  | .deploy id version start =>
    if s.lock.isNone then
      some { s.goto i (.source ⟨id, version, start, false⟩) with lock := some i }
    else none
  | .rollback id start =>
    if s.lock.isNone then some { s.goto i (.selectTarget id start) with lock := some i }
    else none
  | .selectTarget id start =>
    match Dict.get? s.records id with
    | none => some (s.finish i (.error (unknownFlow id)))
    | some r =>
      match r.rollbackTarget with
      | none => some (s.finish i (.error (.invalidState
          "no hay una versión previa desplegada para hacer rollback")))
      | some version => some (s.goto i (.source ⟨id, version, start, true⟩))
  | .source a =>
    match s.versionSource a.id a.version with
    | .error e => some (s.finish i (.error e))
    | .ok source => some (s.goto i (.checkState a source))
  | .checkState a source =>
    match (Dict.get? s.records a.id).bind fun r => r.version? a.version with
    | none => some (s.finish i (.error (unknownVersion a.version)))
    | some v =>
      if v.state = .draft then
        some (s.finish i (.error (.invalidState "la versión debe validarse antes de desplegar")))
      else if v.state = .archived && !a.allowArchived then
        some (s.finish i (.error (.invalidState
          "no se puede desplegar una versión archivada; usa rollback")))
      else
        match codec.parse source with
        | .error e => some (s.finish i (.error (.validation e)))
        | .ok repository => some (s.goto i (.checkQuota a source repository))
  | .checkQuota a source repository =>
    if a.start && (Dict.get? s.running a.id).isNone && s.maxConcurrent ≤ s.running.rows.length then
      some (s.finish i (.error (.limitExceeded ("límite de flujos concurrentes alcanzado (" ++
        toString s.maxConcurrent ++ ")"))))
    else some (s.goto i (.openRepository a source repository))
  | .openRepository a source repository =>
    match repository, input.fault with
    | true, some e => some (s.finish i (.error (.internal e)))
    | _, _ => some (s.goto i (.drain a source))
  | _ => none

/-- The stages of `activate` on the running flows, and `stop_and_unload`. A stop
that fails is taken together with the insertion that follows it. -/
def stepRuntime : Stage → Option Registry
  | .drain a source =>
    match Dict.get? s.running a.id with
    | some previous => some ((s.unsetRunning a.id).goto i (.stop a source previous))
    | none =>
      if a.start then some (s.goto i (.start a source none))
      else some ({ s with supervisors := s.supervisors + 1 }.goto i (.record a s.supervisors))
  | .stop a source previous =>
    match input.fault with
    | some e => some ((s.setRunning a.id previous).finish i (.error (.internal e)))
    | none =>
      if a.start then some ((s.kill previous.supervisor).goto i (.start a source (some previous)))
      else
        some ({ s.kill previous.supervisor with supervisors := s.supervisors + 1 }.goto i
          (.record a s.supervisors))
  | .start a source previous =>
    match input.fault, previous with
    | some e, none => some (s.finish i (.error (.internal e)))
    | some e, some previous => some (s.goto i (.restore a previous e))
    | none, _ => some ((s.spawn a.id).goto i (.insert a source s.supervisors))
  | .restore a previous error =>
    match codec.parse previous.source, input.fault with
    | .error _, _ => some (s.goto i (.reinsert a previous error))
    | .ok _, some _ =>
      some ({ s with supervisors := s.supervisors + 1 }.goto i
        (.reinsert a { previous with supervisor := s.supervisors } error))
    | .ok _, none =>
      some ((s.spawn a.id).goto i
        (.reinsert a { previous with supervisor := s.supervisors } error))
  | .reinsert a previous error =>
    some ((s.setRunning a.id previous).finish i (.error (.internal error)))
  | .insert a source supervisor =>
    some ((s.setRunning a.id ⟨a.version, source, supervisor⟩).goto i (.record a supervisor))
  | .record a supervisor =>
    match Dict.get? s.records a.id with
    | none => some (s.finish i (.error (.internal (.server ("registro del flujo '" ++ a.id ++
        "' desapareció durante el despliegue")))))
    | some r =>
      some (s.write i a.id (r.activated a.version input.now) (.persist (.deployed supervisor)))
  | .unload id =>
    match Dict.get? s.running id with
    | none => some (s.finish i (.error (.notFound ("flujo '" ++ id ++ "' no está en ejecución"))))
    | some previous => some ((s.unsetRunning id).goto i (.unloadStop id previous))
  | .unloadStop id previous =>
    match input.fault with
    | some e => some ((s.setRunning id previous).finish i (.error (.internal e)))
    | none => some ((s.kill previous.supervisor).finish i (.ok (.snapshot previous.supervisor)))
  | _ => none

/-- `persist`: the snapshot, then the temporary file and its renaming. -/
def stepPersist : Stage → Option Registry
  | .persist after =>
    if !s.persistent then some (s.persisted i after)
    else
      match input.io with
      | some e => some (s.unpersisted i (notSerialized e) after)
      | none => some (s.goto i (.openTmp after ⟨s.revision, sorted s.records⟩))
  | .openTmp after snapshot =>
    match input.io, s.disk.tmp with
    | some e, _ => some (s.unpersisted i (notPersisted e) after)
    | none, some inode =>
      some ({ s with disk := { s.disk with files := Function.update s.disk.files inode [] } }.goto i
        (.writeTmp after snapshot inode))
    | none, none =>
      some ({ s with disk := { s.disk with
          files := Function.update s.disk.files s.disk.inodes []
          tmp := some s.disk.inodes
          inodes := s.disk.inodes + 1 } }.goto i (.writeTmp after snapshot s.disk.inodes))
  | .writeTmp after snapshot inode =>
    let bytes := codec.encode snapshot.records
    let old := s.disk.files inode
    match input.io with
    | some e =>
      let part := bytes.take input.written
      some ({ s with disk := { s.disk with
          files := Function.update s.disk.files inode (part ++ old.drop part.length) } }.unpersisted i
        (notPersisted e) after)
    | none =>
      some ({ s with disk := { s.disk with
          files := Function.update s.disk.files inode (bytes ++ old.drop bytes.length) } }.goto i
        (.rename after snapshot))
  | .rename after snapshot =>
    match input.io, s.disk.tmp with
    | some e, _ => some (s.unpersisted i (notPersisted e) after)
    | none, none => some (s.unpersisted i (notPersisted noSuchFile) after)
    | none, some inode =>
      some ({ s with
        disk := { s.disk with flows := some inode, tmp := none }
        published := snapshot }.persisted i after)
  | .report id =>
    match Dict.get? s.records id with
    | none => some (s.finish i (.error (unknownFlow id)))
    | some r => some (s.finish i (.ok (.record r)))
  | _ => none

/-- One stage of a call. -/
def advance (stage : Stage) : Option Registry :=
  ((s.stepRecords i codec input stage).or (s.stepCheck i codec input stage)).or
    ((s.stepRuntime i codec input stage).or (s.stepPersist i codec input stage))

end Registry

/-- The first stage of a call, and the registry it is made to. -/
def Registry.accept (s : Registry) : Request → Registry
  | .createDraft source note => { s with calls := s.calls ++ [⟨.createDraft source note, none⟩] }
  | .validateVersion id version => { s with calls := s.calls ++ [⟨.validate id version, none⟩] }
  | .archiveVersion id version => { s with calls := s.calls ++ [⟨.archive id version, none⟩] }
  | .deployVersion id version start =>
    { s with calls := s.calls ++ [⟨.deploy id version start, none⟩] }
  | .rollback id start => { s with calls := s.calls ++ [⟨.rollback id start, none⟩] }
  | .stopAndUnload id => { s with calls := s.calls ++ [⟨.unload id, none⟩] }
  | .seedRunning id source =>
    { s.spawn id with calls := s.calls ++ [⟨.seed id source s.supervisors, none⟩] }

def step (codec : Codec) (s : Registry) : Action → Option Registry
  | .call request => some (s.accept request)
  | .advance i input => s.calls[i]?.bind fun c => s.advance i codec input c.stage
  | .finish supervisor => some (s.kill supervisor)

/-- The registry under any number of concurrent calls. -/
def registry (codec : Codec) : Machine Registry Action := ⟨step codec⟩

/-! ### What a step does -/

/-- The writes to the records: the stage, and the record that is written. -/
inductive Writes (codec : Codec) (s : Registry) (input : Input) :
    Stage → String → FlowRecord → Stage → Prop where
  | draft {source : String} {note : Option String} {id : String} (record : FlowRecord) :
      codec.flowId source = .ok id →
      record = (Dict.get? s.records id).getD (.fresh id input.now) →
      Writes codec s input (.createDraft source note) id
        (record.draft source (codec.checksum source) note input.now)
        (.persist (.created id record.nextVersion))
  | validated {id : String} {version : ℕ} {r : FlowRecord} {v : FlowVersion} :
      Dict.get? s.records id = some r → r.version? version = some v → v.state ≠ .archived →
      Writes codec s input (.validateWrite id version) id (r.validated version input.now)
        (.persist (.report id))
  | archived {id : String} {version : ℕ} {r : FlowRecord} :
      Dict.get? s.records id = some r → (r.version? version).isSome →
      Writes codec s input (.archiveWrite id version) id (r.archived version input.now)
        (.persist (.report id))
  | seeded {id source : String} {supervisor : ℕ} (record : FlowRecord) :
      record = (Dict.get? s.records id).getD (.fresh id input.now) →
      Writes codec s input (.seed id source supervisor) id
        (record.seeded source (codec.checksum source) input.now)
        (.seedRunning id source supervisor record.nextVersion)
  | activated {a : Activation} {supervisor : ℕ} {r : FlowRecord} :
      Dict.get? s.records a.id = some r →
      Writes codec s input (.record a supervisor) a.id (r.activated a.version input.now)
        (.persist (.deployed supervisor))

/-- The version that an activation has found in the records. -/
def Stage.target? : Stage → Option (String × ℕ)
  | .checkState a _ | .checkQuota a _ _ | .openRepository a _ _ | .drain a _ | .stop a _ _
  | .start a _ _ | .restore a _ _ | .reinsert a _ _ | .insert a _ _ | .record a _ =>
    some (a.id, a.version)
  | _ => none

/-- The stages of a call that has written the records and has not returned. -/
def Stage.late : Stage → Bool
  | .seedRunning .. | .persist _ | .openTmp .. | .writeTmp .. | .rename .. | .report _ => true
  | _ => false

def Stage.isDone : Stage → Bool
  | .done _ => true
  | _ => false

/-- The stages of a call up to its write. -/
def Stage.early (stage : Stage) : Bool := !stage.late && !stage.isDone

/-- The stages of an activation under the deployment lock. -/
def Stage.activating : Stage → Bool
  | .selectTarget .. | .source _ | .checkState .. | .checkQuota .. | .openRepository ..
  | .drain .. | .stop .. | .start .. | .restore .. | .reinsert .. | .insert .. | .record .. => true
  | _ => false

/-- The flow that a call has taken out of `running`, or is about to put there,
and the supervisor whose engine may be alive. -/
def Stage.holds : Stage → Option (String × Option ℕ)
  | .stop a _ previous => some (a.id, some previous.supervisor)
  | .start a _ (some _) => some (a.id, none)
  | .restore a _ _ => some (a.id, none)
  | .reinsert a previous _ => some (a.id, some previous.supervisor)
  | .insert a _ supervisor => some (a.id, some supervisor)
  | .unloadStop id previous => some (id, some previous.supervisor)
  | _ => none

/-- The flow for which an activation may add an entry to `running`. -/
def Stage.place : Stage → Option String
  | .openRepository a _ _ | .drain a _ => if a.start then some a.id else none
  | .stop a _ _ | .start a _ _ | .restore a _ _ | .reinsert a _ _ | .insert a _ _ => some a.id
  | _ => none

def Stage.seeding : Stage → Bool
  | .seed .. | .seedRunning .. => true
  | _ => false

def Stage.engaged (stage : Stage) : Bool :=
  stage.activating || stage.holds.isSome || stage.seeding

namespace Registry

variable {s t : Registry} {i : ℕ} {codec : Codec} {input : Input} {stage : Stage}

theorem advance_cases (h : s.advance i codec input stage = some t) :
    s.stepRecords i codec input stage = some t ∨ s.stepCheck i codec input stage = some t ∨
      s.stepRuntime i codec input stage = some t ∨ s.stepPersist i codec input stage = some t := by
  unfold advance at h
  rw [Option.or_eq_some_iff, Option.or_eq_some_iff, Option.or_eq_some_iff] at h
  tauto

/-- A step that does not write the records. -/
structure Moves (s : Registry) (i : ℕ) (t : Registry) (stage : Stage) : Prop where
  calls : t.calls = s.calls.modify i fun c => { c with stage := stage }
  records : t.records = s.records
  revision : t.revision = s.revision
  persistent : t.persistent = s.persistent

/-- A step that leaves `flows.json` alone. -/
structure Quiet (s t : Registry) : Prop where
  disk : t.disk = s.disk
  published : t.published = s.published

/-- The deployment lock after call `i` has moved on: a call that returns lets go of it. -/
def lockAfter (s : Registry) (i : ℕ) (next : Stage) : Option ℕ :=
  match next.isDone with
  | true => if s.lock = some i then none else s.lock
  | false => s.lock

/-- A step that leaves the running flows alone. -/
structure Still (s : Registry) (i : ℕ) (t : Registry) (next : Stage) : Prop where
  running : t.running = s.running
  live : t.live = s.live
  supervisors : t.supervisors = s.supervisors
  maxConcurrent : t.maxConcurrent = s.maxConcurrent
  lock : t.lock = s.lockAfter i next

theorem stepRecords_cases (h : s.stepRecords i codec input stage = some t) :
    (∃ next, s.Moves i t next ∧ s.Quiet t ∧ next.engaged = false ∧
      (stage.seeding = false → s.Still i t next) ∧
      (stage.early = true ∧ next.late = false ∨ stage.late = true ∧ next = .persist .seeded)) ∨
    ∃ id r next, Writes codec s input stage id r next ∧ t = s.write i id r next := by
  unfold stepRecords at h
  split at h
  · split at h
    · cases h
      exact .inl ⟨_, ⟨rfl, rfl, rfl, rfl⟩, ⟨rfl, rfl⟩, rfl,
        fun _ => ⟨rfl, rfl, rfl, rfl, rfl⟩, .inl ⟨rfl, rfl⟩⟩
    next id hid =>
      split_ifs at h <;> cases h
      · exact .inl ⟨_, ⟨rfl, rfl, rfl, rfl⟩, ⟨rfl, rfl⟩, rfl,
        fun _ => ⟨rfl, rfl, rfl, rfl, rfl⟩, .inl ⟨rfl, rfl⟩⟩
      · exact .inr ⟨_, _, _, .draft _ hid rfl, rfl⟩
  · split at h
    · cases h
      exact .inl ⟨_, ⟨rfl, rfl, rfl, rfl⟩, ⟨rfl, rfl⟩, rfl,
        fun _ => ⟨rfl, rfl, rfl, rfl, rfl⟩, .inl ⟨rfl, rfl⟩⟩
    · split at h <;> cases h <;> exact .inl ⟨_, ⟨rfl, rfl, rfl, rfl⟩, ⟨rfl, rfl⟩, rfl,
        fun _ => ⟨rfl, rfl, rfl, rfl, rfl⟩, .inl ⟨rfl, rfl⟩⟩
  · split at h
    · cases h
      exact .inl ⟨_, ⟨rfl, rfl, rfl, rfl⟩, ⟨rfl, rfl⟩, rfl,
        fun _ => ⟨rfl, rfl, rfl, rfl, rfl⟩, .inl ⟨rfl, rfl⟩⟩
    next r hr =>
      split at h
      · cases h
        exact .inl ⟨_, ⟨rfl, rfl, rfl, rfl⟩, ⟨rfl, rfl⟩, rfl,
        fun _ => ⟨rfl, rfl, rfl, rfl, rfl⟩, .inl ⟨rfl, rfl⟩⟩
      next v hv =>
        split_ifs at h with hstate <;> cases h
        · exact .inl ⟨_, ⟨rfl, rfl, rfl, rfl⟩, ⟨rfl, rfl⟩, rfl,
        fun _ => ⟨rfl, rfl, rfl, rfl, rfl⟩, .inl ⟨rfl, rfl⟩⟩
        · exact .inr ⟨_, _, _, .validated hr hv hstate, rfl⟩
  · split_ifs at h <;> cases h <;> exact .inl ⟨_, ⟨rfl, rfl, rfl, rfl⟩, ⟨rfl, rfl⟩, rfl,
        fun _ => ⟨rfl, rfl, rfl, rfl, rfl⟩, .inl ⟨rfl, rfl⟩⟩
  · split at h
    · cases h
      exact .inl ⟨_, ⟨rfl, rfl, rfl, rfl⟩, ⟨rfl, rfl⟩, rfl,
        fun _ => ⟨rfl, rfl, rfl, rfl, rfl⟩, .inl ⟨rfl, rfl⟩⟩
    next r hr =>
      split at h
      · cases h
        exact .inl ⟨_, ⟨rfl, rfl, rfl, rfl⟩, ⟨rfl, rfl⟩, rfl,
        fun _ => ⟨rfl, rfl, rfl, rfl, rfl⟩, .inl ⟨rfl, rfl⟩⟩
      next v hv =>
        cases h
        exact .inr ⟨_, _, _, .archived hr (by rw [hv]; rfl), rfl⟩
  · cases h
    exact .inr ⟨_, _, _, .seeded _ rfl, rfl⟩
  · cases h
    exact .inl ⟨_, ⟨rfl, rfl, rfl, rfl⟩, ⟨rfl, rfl⟩, rfl,
        fun hseed => (by cases hseed), .inr ⟨rfl, rfl⟩⟩
  · cases h

/-- What the checks of an activation say of the running flows: nothing is taken
yet, and a place is granted only where there is room. -/
structure Checks (s : Registry) (i : ℕ) (t : Registry) (stage next : Stage) : Prop where
  still : stage.activating = true ∧ s.Still i t next ∨
    stage.engaged = false ∧ s.lock = none ∧ t = { s.goto i next with lock := some i }
  holds : stage.holds = none ∧ next.holds = none
  unseeded : next.seeding = false
  place : ∀ id, next.place = some id → stage.place = some id ∨
    (Dict.get? s.running id = none → s.running.rows.length < s.maxConcurrent)

theorem stepCheck_cases (h : s.stepCheck i codec input stage = some t) :
    ∃ next, s.Moves i t next ∧ s.Quiet t ∧ s.Checks i t stage next ∧
      (stage.early = true ∧ next.late = false) ∧
      (next.target? = stage.target? ∨ next.target? = none ∨
        ∃ a source, next.target? = some a ∧ s.versionSource a.1 a.2 = .ok source) := by
  have hback : ∀ {next : Stage}, stage.activating = true →
      stage.holds = none ∧ next.holds = none → next.seeding = false → next.place = none →
      s.Still i t next → s.Checks i t stage next := by
    intro next ha hh hn hp hst
    refine ⟨.inl ⟨ha, hst⟩, hh, hn, fun id hid => ?_⟩
    rw [hp] at hid
    cases hid
  unfold stepCheck at h
  split at h
  · split_ifs at h with hlock
    cases h
    exact ⟨_, ⟨rfl, rfl, rfl, rfl⟩, ⟨rfl, rfl⟩,
      ⟨.inr ⟨rfl, Option.isNone_iff_eq_none.mp hlock, rfl⟩, ⟨rfl, rfl⟩, rfl, fun _ hp => (by cases hp)⟩,
      ⟨rfl, rfl⟩, .inr (.inl rfl)⟩
  · split_ifs at h with hlock
    cases h
    exact ⟨_, ⟨rfl, rfl, rfl, rfl⟩, ⟨rfl, rfl⟩,
      ⟨.inr ⟨rfl, Option.isNone_iff_eq_none.mp hlock, rfl⟩, ⟨rfl, rfl⟩, rfl, fun _ hp => (by cases hp)⟩,
      ⟨rfl, rfl⟩, .inr (.inl rfl)⟩
  · split at h
    · cases h
      exact ⟨_, ⟨rfl, rfl, rfl, rfl⟩, ⟨rfl, rfl⟩, hback rfl ⟨rfl, rfl⟩ rfl rfl ⟨rfl, rfl, rfl, rfl, rfl⟩,
        ⟨rfl, rfl⟩, .inr (.inl rfl)⟩
    · split at h <;> cases h <;>
        exact ⟨_, ⟨rfl, rfl, rfl, rfl⟩, ⟨rfl, rfl⟩, hback rfl ⟨rfl, rfl⟩ rfl rfl ⟨rfl, rfl, rfl, rfl, rfl⟩,
          ⟨rfl, rfl⟩, .inr (.inl rfl)⟩
  · split at h
    · cases h
      exact ⟨_, ⟨rfl, rfl, rfl, rfl⟩, ⟨rfl, rfl⟩, hback rfl ⟨rfl, rfl⟩ rfl rfl ⟨rfl, rfl, rfl, rfl, rfl⟩,
        ⟨rfl, rfl⟩, .inr (.inl rfl)⟩
    next source hsource =>
      cases h
      exact ⟨_, ⟨rfl, rfl, rfl, rfl⟩, ⟨rfl, rfl⟩, hback rfl ⟨rfl, rfl⟩ rfl rfl ⟨rfl, rfl, rfl, rfl, rfl⟩,
        ⟨rfl, rfl⟩, .inr (.inr ⟨_, source, rfl, hsource⟩)⟩
  · split at h
    · cases h
      exact ⟨_, ⟨rfl, rfl, rfl, rfl⟩, ⟨rfl, rfl⟩, hback rfl ⟨rfl, rfl⟩ rfl rfl ⟨rfl, rfl, rfl, rfl, rfl⟩,
        ⟨rfl, rfl⟩, .inr (.inl rfl)⟩
    · split_ifs at h
      · cases h
        exact ⟨_, ⟨rfl, rfl, rfl, rfl⟩, ⟨rfl, rfl⟩, hback rfl ⟨rfl, rfl⟩ rfl rfl ⟨rfl, rfl, rfl, rfl, rfl⟩,
          ⟨rfl, rfl⟩, .inr (.inl rfl)⟩
      · cases h
        exact ⟨_, ⟨rfl, rfl, rfl, rfl⟩, ⟨rfl, rfl⟩, hback rfl ⟨rfl, rfl⟩ rfl rfl ⟨rfl, rfl, rfl, rfl, rfl⟩,
          ⟨rfl, rfl⟩, .inr (.inl rfl)⟩
      · split at h <;> cases h
        · exact ⟨_, ⟨rfl, rfl, rfl, rfl⟩, ⟨rfl, rfl⟩, hback rfl ⟨rfl, rfl⟩ rfl rfl ⟨rfl, rfl, rfl, rfl, rfl⟩,
            ⟨rfl, rfl⟩, .inr (.inl rfl)⟩
        · exact ⟨_, ⟨rfl, rfl, rfl, rfl⟩, ⟨rfl, rfl⟩, hback rfl ⟨rfl, rfl⟩ rfl rfl ⟨rfl, rfl, rfl, rfl, rfl⟩,
            ⟨rfl, rfl⟩, .inl rfl⟩
  next a source repository =>
    split_ifs at h with hquota <;> cases h
    · exact ⟨_, ⟨rfl, rfl, rfl, rfl⟩, ⟨rfl, rfl⟩, hback rfl ⟨rfl, rfl⟩ rfl rfl ⟨rfl, rfl, rfl, rfl, rfl⟩,
        ⟨rfl, rfl⟩, .inr (.inl rfl)⟩
    · refine ⟨_, ⟨rfl, rfl, rfl, rfl⟩, ⟨rfl, rfl⟩, ⟨.inl ⟨rfl, rfl, rfl, rfl, rfl, rfl⟩,
        ⟨rfl, rfl⟩, rfl, fun id hid => .inr fun hnone => ?_⟩, ⟨rfl, rfl⟩, .inl rfl⟩
      simp only [Stage.place] at hid
      split_ifs at hid with hstart
      cases hid
      rw [hstart, hnone] at hquota
      simp only [Option.isNone_none, Bool.and_self, Bool.true_and, decide_eq_true_eq] at hquota
      omega
  · split at h <;> cases h
    · exact ⟨_, ⟨rfl, rfl, rfl, rfl⟩, ⟨rfl, rfl⟩, hback rfl ⟨rfl, rfl⟩ rfl rfl ⟨rfl, rfl, rfl, rfl, rfl⟩,
        ⟨rfl, rfl⟩, .inr (.inl rfl)⟩
    · exact ⟨_, ⟨rfl, rfl, rfl, rfl⟩, ⟨rfl, rfl⟩, ⟨.inl ⟨rfl, rfl, rfl, rfl, rfl, rfl⟩,
        ⟨rfl, rfl⟩, rfl, fun id hid => .inl hid⟩, ⟨rfl, rfl⟩, .inl rfl⟩
  · cases h

theorem stepRuntime_cases (h : s.stepRuntime i codec input stage = some t) :
    (∃ next, s.Moves i t next ∧ s.Quiet t ∧ (stage.early = true ∧ next.late = false) ∧
      (next.target? = stage.target? ∨ next.target? = none)) ∨
    ∃ id r next, Writes codec s input stage id r next ∧ t = s.write i id r next := by
  unfold stepRuntime at h
  split at h
  · split at h
    · cases h
      exact .inl ⟨_, ⟨rfl, rfl, rfl, rfl⟩, ⟨rfl, rfl⟩, ⟨rfl, rfl⟩, .inl rfl⟩
    · split_ifs at h <;> cases h <;> exact .inl ⟨_, ⟨rfl, rfl, rfl, rfl⟩, ⟨rfl, rfl⟩, ⟨rfl, rfl⟩, .inl rfl⟩
  · split at h
    · cases h
      exact .inl ⟨_, ⟨rfl, rfl, rfl, rfl⟩, ⟨rfl, rfl⟩, ⟨rfl, rfl⟩, .inr rfl⟩
    · split_ifs at h <;> cases h <;> exact .inl ⟨_, ⟨rfl, rfl, rfl, rfl⟩, ⟨rfl, rfl⟩, ⟨rfl, rfl⟩, .inl rfl⟩
  · split at h <;> cases h
    · exact .inl ⟨_, ⟨rfl, rfl, rfl, rfl⟩, ⟨rfl, rfl⟩, ⟨rfl, rfl⟩, .inr rfl⟩
    · exact .inl ⟨_, ⟨rfl, rfl, rfl, rfl⟩, ⟨rfl, rfl⟩, ⟨rfl, rfl⟩, .inl rfl⟩
    · exact .inl ⟨_, ⟨rfl, rfl, rfl, rfl⟩, ⟨rfl, rfl⟩, ⟨rfl, rfl⟩, .inl rfl⟩
  · split at h <;> cases h <;> exact .inl ⟨_, ⟨rfl, rfl, rfl, rfl⟩, ⟨rfl, rfl⟩, ⟨rfl, rfl⟩, .inl rfl⟩
  · cases h
    exact .inl ⟨_, ⟨rfl, rfl, rfl, rfl⟩, ⟨rfl, rfl⟩, ⟨rfl, rfl⟩, .inr rfl⟩
  · cases h
    exact .inl ⟨_, ⟨rfl, rfl, rfl, rfl⟩, ⟨rfl, rfl⟩, ⟨rfl, rfl⟩, .inl rfl⟩
  · split at h
    · cases h
      exact .inl ⟨_, ⟨rfl, rfl, rfl, rfl⟩, ⟨rfl, rfl⟩, ⟨rfl, rfl⟩, .inr rfl⟩
    next r hr =>
      cases h
      exact .inr ⟨_, _, _, .activated hr, rfl⟩
  · split at h <;> cases h <;> exact .inl ⟨_, ⟨rfl, rfl, rfl, rfl⟩, ⟨rfl, rfl⟩, ⟨rfl, rfl⟩, .inr rfl⟩
  · split at h <;> cases h <;> exact .inl ⟨_, ⟨rfl, rfl, rfl, rfl⟩, ⟨rfl, rfl⟩, ⟨rfl, rfl⟩, .inr rfl⟩
  · cases h

theorem persisted_moves (s : Registry) (i : ℕ) (after : After) : ∃ next,
    s.Moves i (s.persisted i after) next ∧ s.Still i (s.persisted i after) next ∧
      next.engaged = false ∧ next.early = false := by
  cases after
  all_goals exact ⟨_, ⟨rfl, rfl, rfl, rfl⟩, ⟨rfl, rfl, rfl, rfl, rfl⟩, rfl, rfl⟩

theorem unpersisted_moves (s : Registry) (i : ℕ) (error : RegistryError) (after : After) :
    ∃ next, s.Moves i (s.unpersisted i error after) next ∧
      s.Still i (s.unpersisted i error after) next ∧ next.engaged = false ∧ next.early = false := by
  cases after <;> exact ⟨_, ⟨rfl, rfl, rfl, rfl⟩, ⟨rfl, rfl, rfl, rfl, rfl⟩, rfl, rfl⟩

theorem stepPersist_cases (h : s.stepPersist i codec input stage = some t) :
    ∃ next, s.Moves i t next ∧ s.Still i t next ∧ (next.engaged = false ∧ next.early = false) ∧
      stage.engaged = false ∧ stage.early = false := by
  have hback : ∀ {next : Stage}, stage.engaged = false ∧ stage.early = false →
      s.Moves i t next ∧ s.Still i t next ∧ next.engaged = false ∧ next.early = false →
      ∃ next, s.Moves i t next ∧ s.Still i t next ∧ (next.engaged = false ∧ next.early = false) ∧
        stage.engaged = false ∧ stage.early = false := fun hs ⟨hm, hst, hn⟩ => ⟨_, hm, hst, hn, hs⟩
  unfold stepPersist at h
  split at h
  · split_ifs at h
    · cases h
      obtain ⟨next, hm⟩ := persisted_moves s i _
      exact hback ⟨rfl, rfl⟩ hm
    · split at h <;> cases h
      · obtain ⟨next, hm⟩ := unpersisted_moves s i _ _
        exact hback ⟨rfl, rfl⟩ hm
      · exact ⟨_, ⟨rfl, rfl, rfl, rfl⟩, ⟨rfl, rfl, rfl, rfl, rfl⟩, ⟨rfl, rfl⟩, ⟨rfl, rfl⟩⟩
  · split at h <;> cases h
    · obtain ⟨next, hm⟩ := unpersisted_moves s i _ _
      exact hback ⟨rfl, rfl⟩ hm
    · exact ⟨_, ⟨rfl, rfl, rfl, rfl⟩, ⟨rfl, rfl, rfl, rfl, rfl⟩, ⟨rfl, rfl⟩, ⟨rfl, rfl⟩⟩
    · exact ⟨_, ⟨rfl, rfl, rfl, rfl⟩, ⟨rfl, rfl, rfl, rfl, rfl⟩, ⟨rfl, rfl⟩, ⟨rfl, rfl⟩⟩
  · simp only at h
    split at h <;> cases h
    · obtain ⟨next, hm, hst, hn⟩ := unpersisted_moves _ i _ _
      exact ⟨next, ⟨hm.calls, hm.records, hm.revision, hm.persistent⟩,
        ⟨hst.running, hst.live, hst.supervisors, hst.maxConcurrent, hst.lock⟩, hn, ⟨rfl, rfl⟩⟩
    · exact ⟨_, ⟨rfl, rfl, rfl, rfl⟩, ⟨rfl, rfl, rfl, rfl, rfl⟩, ⟨rfl, rfl⟩, ⟨rfl, rfl⟩⟩
  · split at h <;> cases h
    · obtain ⟨next, hm⟩ := unpersisted_moves s i _ _
      exact hback ⟨rfl, rfl⟩ hm
    · obtain ⟨next, hm⟩ := unpersisted_moves s i _ _
      exact hback ⟨rfl, rfl⟩ hm
    · obtain ⟨next, hm, hst, hn⟩ := persisted_moves _ i _
      exact ⟨next, ⟨hm.calls, hm.records, hm.revision, hm.persistent⟩,
        ⟨hst.running, hst.live, hst.supervisors, hst.maxConcurrent, hst.lock⟩, hn, ⟨rfl, rfl⟩⟩
  · split at h <;> cases h <;>
      exact ⟨_, ⟨rfl, rfl, rfl, rfl⟩, ⟨rfl, rfl, rfl, rfl, rfl⟩, ⟨rfl, rfl⟩, ⟨rfl, rfl⟩⟩
  · cases h

theorem not_engaged_of_stepRecords (h : s.stepRecords i codec input stage = some t)
    (hseed : stage.seeding = false) : stage.engaged = false := by
  cases stage <;> first | rfl | exact Bool.noConfusion hseed | cases h

theorem target?_of_not_engaged (h : stage.engaged = false) : stage.target? = none := by
  cases stage <;> first | rfl | cases h

/-- A stage moves the call on and leaves the records alone, or it writes one, or
it is one of `persist`. -/
theorem advance_spec (h : s.advance i codec input stage = some t) :
    (∃ next, s.Moves i t next ∧ s.Quiet t ∧
      (stage.early = true ∧ next.late = false ∨ stage.late = true ∧ next = .persist .seeded) ∧
      (next.target? = stage.target? ∨ next.target? = none ∨
        ∃ a source, next.target? = some a ∧ s.versionSource a.1 a.2 = .ok source)) ∨
    (∃ id r next, Writes codec s input stage id r next ∧ t = s.write i id r next) ∨
    s.stepPersist i codec input stage = some t := by
  rcases advance_cases h with h | h | h | h
  · rcases stepRecords_cases h with ⟨next, hm, hq, hn, _, hl⟩ | hw
    · exact .inl ⟨next, hm, hq, hl, .inr (.inl (target?_of_not_engaged hn))⟩
    · exact .inr (.inl hw)
  · obtain ⟨next, hm, hq, _, hl, hn⟩ := stepCheck_cases h
    exact .inl ⟨next, hm, hq, .inl hl, hn⟩
  · rcases stepRuntime_cases h with ⟨next, hm, hq, hl, hn⟩ | hw
    · exact .inl ⟨next, hm, hq, .inl hl, hn.imp_right .inl⟩
    · exact .inr (.inl hw)
  · exact .inr (.inr h)

/-- A stage moves the call on and leaves the records alone, or it writes one. -/
theorem advance_moves (h : s.advance i codec input stage = some t) :
    (∃ next, s.Moves i t next ∧
      (next.target? = stage.target? ∨ next.target? = none ∨
        ∃ a source, next.target? = some a ∧ s.versionSource a.1 a.2 = .ok source)) ∨
    ∃ id r next, Writes codec s input stage id r next ∧ t = s.write i id r next := by
  rcases advance_spec h with ⟨next, hm, _, _, hn⟩ | hw | h
  · exact .inl ⟨next, hm, hn⟩
  · exact .inr hw
  · obtain ⟨next, hm, _, hn, _⟩ := stepPersist_cases h
    exact .inl ⟨next, hm, .inr (.inl (target?_of_not_engaged hn.1))⟩

end Registry

end Jaiba.Server
