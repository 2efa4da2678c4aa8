import Jaiba.Lib.Machine
import Jaiba.Lib.Table
import Jaiba.Packet

/-!
# The packet queue database (`engine/repository.rs`)

`jaiva_packet_queue` and `jaiva_provenance` with the transactions that
`LocalPacketRepository` runs on them. Every transaction is a function of the
whole database: SQLite commits it at once or rolls it back. The `now` argument
is the value of `now_epoch()` inside the transaction.
-/

namespace Jaiba.Repository
open Jaiba.Lib

/-- `jaiva_packet_queue.status`. -/
inductive Status where
  | pending | running | completed | deadLetter
  deriving Repr, DecidableEq

/-- Auditable lifecycle event for a queue item. -/
inductive ProvenanceEvent where
  | enqueued | claimed | completed | failed | recovered | requeued
  | processingStarted | retried | processed | routed
  deriving Repr, DecidableEq

def Status.asStr : Status → String
  | .pending => "PENDING"
  | .running => "RUNNING"
  | .completed => "COMPLETED"
  | .deadLetter => "DEAD_LETTER"

def ProvenanceEvent.asStr : ProvenanceEvent → String
  | .enqueued => "ENQUEUED"
  | .claimed => "CLAIMED"
  | .completed => "COMPLETED"
  | .failed => "FAILED"
  | .recovered => "RECOVERED"
  | .requeued => "REQUEUED"
  | .processingStarted => "PROCESSING_STARTED"
  | .retried => "RETRIED"
  | .processed => "PROCESSED"
  | .routed => "ROUTED"

/-- A row of `jaiva_packet_queue`. -/
structure Row where
  queueId : String
  packetId : String
  flowId : String
  processorId : String
  relationship : String
  status : Status
  attempt : ℕ
  attributesJson : String
  schemaJson : Option String
  contentKey : String
  contentKind : String
  mediaType : Option String
  contentSize : ℕ
  createdAt : ℤ
  claimedAt : Option ℤ
  completedAt : Option ℤ
  error : Option String
  deriving Repr, DecidableEq

/-- A row of `jaiva_provenance`, its id apart. `informational` is a mark of the
model for the rows `record_event` writes; the table has no such column. -/
structure Provenance where
  queueId : String
  packetId : String
  flowId : String
  processorId : String
  eventType : ProvenanceEvent
  details : Json
  createdAt : ℤ
  informational : Bool

abbrev PacketQueue := Table String Row Row.queueId

structure Database where
  queue : PacketQueue
  provenance : Log Provenance

namespace Database

def empty : Database := ⟨Table.empty, Log.empty⟩

/-- `insert_provenance`: identity columns are read from the queue row, so
nothing is written when there is no such row. -/
def insertProvenance (db : Database) (now : ℤ) (queueId : String) (event : ProvenanceEvent)
    (details : Json) (informational : Bool) : Database :=
  match db.queue.find? queueId with
  | none => db
  | some row =>
    { db with
      provenance := db.provenance.append
        { queueId := row.queueId, packetId := row.packetId, flowId := row.flowId
          processorId := row.processorId, eventType := event, details := details
          createdAt := now, informational := informational } }

/-- The transaction shared by `claim`, `complete`, `fail` and
`requeue_dead_letter`: `UPDATE … SET set WHERE queue_id = ? AND status = guard`,
roll back unless one row moved, else write the event and commit. -/
def guardedUpdate (db : Database) (now : ℤ) (queueId : String) (guard : Status)
    (set : Row → Row) (hset : ∀ r, (set r).queueId = r.queueId)
    (event : ProvenanceEvent) (details : Json) : Bool × Database :=
  let selected : Row → Bool := fun r => r.queueId = queueId && r.status = guard
  if db.queue.affected selected ≠ 1 then (false, db)
  else
    let moved : Database := { db with queue := db.queue.updateWhere selected set hset }
    (true, moved.insertProvenance now queueId event details false)

def claim (db : Database) (now : ℤ) (queueId : String) : Bool × Database :=
  db.guardedUpdate now queueId .pending
    (fun r => { r with status := .running, claimedAt := some now }) (fun _ => rfl)
    .claimed (.object [("status", .string "RUNNING")])

/-- Status written by `complete` for the event it is given. -/
def completedStatus : ProvenanceEvent → Status
  | .failed => .deadLetter
  | _ => .completed

def complete (db : Database) (now : ℤ) (queueId : String) (event : ProvenanceEvent) : Database :=
  (db.guardedUpdate now queueId .running
    (fun r => { r with status := completedStatus event, completedAt := some now }) (fun _ => rfl)
    event (.object [("status", .string (completedStatus event).asStr)])).2

def fail (db : Database) (now : ℤ) (queueId error : String) (attempt : ℕ) : Database :=
  (db.guardedUpdate now queueId .running
    (fun r => { r with
      status := .deadLetter, attempt := attempt, error := some error, completedAt := some now })
    (fun _ => rfl) .failed
    (.object [("attempt", .number (.posInt attempt)), ("error", .string error),
      ("status", .string "DEAD_LETTER")])).2

def requeueDeadLetter (db : Database) (now : ℤ) (queueId : String) : Bool × Database :=
  db.guardedUpdate now queueId .deadLetter
    (fun r => { r with
      status := .pending, attempt := 0, error := none, claimedAt := none, completedAt := none })
    (fun _ => rfl) .requeued
    (.object [("attempt", .number (.posInt 0)), ("status", .string "PENDING")])

/-- `record_event`: one autocommit `INSERT … SELECT`. -/
def recordEvent (db : Database) (now : ℤ) (queueId : String) (event : ProvenanceEvent)
    (details : Json) : Database :=
  db.insertProvenance now queueId event details true

/-- The columns of a new row that `enqueue` computes before its transaction. -/
structure NewRow where
  queueId : String
  packetId : String
  flowId : String
  processorId : String
  relationship : String
  attempt : ℕ
  attributesJson : String
  schemaJson : Option String
  contentKey : String
  contentKind : String
  mediaType : Option String
  contentSize : ℕ
  attributeCount : ℕ
  operationalAttributes : List (String × String)

def NewRow.toRow (n : NewRow) (now : ℤ) : Row where
  queueId := n.queueId
  packetId := n.packetId
  flowId := n.flowId
  processorId := n.processorId
  relationship := n.relationship
  status := .pending
  attempt := n.attempt
  attributesJson := n.attributesJson
  schemaJson := n.schemaJson
  contentKey := n.contentKey
  contentKind := n.contentKind
  mediaType := n.mediaType
  contentSize := n.contentSize
  createdAt := now
  claimedAt := none
  completedAt := none
  error := none

def NewRow.details (n : NewRow) : Json :=
  .object
    [("attempt", .number (.posInt n.attempt)),
     ("attribute_count", .number (.posInt n.attributeCount)),
     ("content_bytes", .number (.posInt n.contentSize)),
     ("content_kind", .string n.contentKind),
     ("has_schema", .bool n.schemaJson.isSome),
     ("media_type", n.mediaType.elim .null .string),
     ("operational_attributes",
       .object (n.operationalAttributes.map fun kv => (kv.1, .string kv.2))),
     ("relationship", .string n.relationship)]

/-- The transaction of `enqueue`: the row and its `ENQUEUED` event together.
`none` is the primary-key violation, which rolls back. -/
def insertPending (db : Database) (now : ℤ) (n : NewRow) : Option Database :=
  (db.queue.insert (n.toRow now)).map fun queue =>
    { queue := queue
      provenance := db.provenance.append
        { queueId := n.queueId, packetId := n.packetId, flowId := n.flowId
          processorId := n.processorId, eventType := .enqueued, details := n.details
          createdAt := now, informational := false } }

/-! ### Time arithmetic on `i64` seconds -/

/-- `u64 as i64`. -/
def asI64 (n : ℕ) : ℤ := if n % 2 ^ 64 < 2 ^ 63 then (n % 2 ^ 64 : ℕ) else (n % 2 ^ 64 : ℕ) - 2 ^ 64

/-- `i64::saturating_sub`. -/
def saturatingSub (a b : ℤ) : ℤ := max (-2 ^ 63) (min (2 ^ 63 - 1) (a - b))

/-- `u64::saturating_mul`. -/
def saturatingMul (a b : ℕ) : ℕ := min (a * b) (2 ^ 64 - 1)

/-- `column <= cutoff` in SQL: false on `NULL`. -/
def atMost (column : Option ℤ) (cutoff : ℤ) : Bool :=
  match column with
  | some t => t ≤ cutoff
  | none => false

/-- One iteration of the loop of `recover_abandoned`. -/
def recoverOne (db : Database) (now : ℤ) (queueId : String) : Bool × Database :=
  db.guardedUpdate now queueId .running
    (fun r => { r with status := .pending, claimedAt := none }) (fun _ => rfl)
    .recovered (.object [("reason", .string "abandoned"), ("status", .string "PENDING")])

/-- The rows `recover_abandoned` selects. -/
def abandoned (db : Database) (flowId : String) (cutoff : ℤ) : List String :=
  (db.queue.rows.filter fun r =>
    r.flowId = flowId && r.status = .running && atMost r.claimedAt cutoff).map Row.queueId

/-- `recover_abandoned`, one transaction over all selected rows. -/
def recoverAbandoned (db : Database) (now : ℤ) (flowId : String) (abandonedAfterSeconds : ℕ) :
    ℕ × Database :=
  let cutoff := saturatingSub now (asI64 abandonedAfterSeconds)
  (db.abandoned flowId cutoff).foldl
    (fun acc queueId =>
      let r := acc.2.recoverOne now queueId
      (if r.1 then acc.1 + 1 else acc.1, r.2))
    (0, db)

def cleanupCutoff (now : ℤ) (retentionHours : ℕ) : ℤ :=
  saturatingSub now (asI64 (saturatingMul retentionHours 3600))

/-- `WHERE status = 'COMPLETED' AND completed_at <= ?`. -/
def expired (cutoff : ℤ) (r : Row) : Bool := r.status = .completed && atMost r.completedAt cutoff

/-- The `DELETE` of `cleanup_completed`. -/
def deleteCompleted (db : Database) (cutoff : ℤ) : Database :=
  { db with queue := db.queue.deleteWhere (expired cutoff) }

/-- `cleanup_provenance`. -/
def cleanupProvenance (db : Database) (now : ℤ) (retentionHours : ℕ) : Database :=
  { db with
    provenance := db.provenance.deleteWhere fun e =>
      e.createdAt ≤ cleanupCutoff now retentionHours }

/-! ### What each transaction does to one row -/

/-- Status of a row, `none` when there is no row. -/
def statusOf (db : Database) (queueId : String) : Option Status :=
  (db.queue.find? queueId).map Row.status

/-- Lifecycle events of one row in the order of their ids. -/
def history (db : Database) (queueId : String) : List ProvenanceEvent :=
  (db.provenance.values.filter fun e => e.queueId = queueId && !e.informational).map
    Provenance.eventType

theorem history_append (p : Log Provenance) (queue : PacketQueue) (e : Provenance) (q : String) :
    history ⟨queue, p.append e⟩ q =
      history ⟨queue, p⟩ q ++
        if e.queueId = q ∧ e.informational = false then [e.eventType] else [] := by
  simp only [history, Log.values_append, List.filter_append, List.map_append]
  congr 1
  by_cases h : e.queueId = q <;> cases hi : e.informational <;> simp [h, hi]

theorem insertProvenance_queue (db : Database) (now : ℤ) (queueId : String)
    (event : ProvenanceEvent) (details : Json) (informational : Bool) :
    (db.insertProvenance now queueId event details informational).queue = db.queue := by
  unfold insertProvenance
  split <;> rfl

theorem insertProvenance_history (db : Database) (now : ℤ) (queueId : String)
    (event : ProvenanceEvent) (details : Json) (informational : Bool) (q : String) :
    (db.insertProvenance now queueId event details informational).history q =
      db.history q ++
        if q = queueId ∧ (db.statusOf queueId).isSome ∧ informational = false then [event]
        else [] := by
  unfold insertProvenance statusOf
  cases hf : db.queue.find? queueId with
  | none => simp
  | some row =>
    have hk : row.queueId = queueId := Table.find?_key hf
    rw [history_append]
    simp only [hk, Option.map_some, Option.isSome_some, true_and, eq_comm (a := queueId)]

/-- `guardedUpdate` on a row that is not in the guard state. -/
theorem guardedUpdate_miss (db : Database) (now : ℤ) (queueId : String) (guard : Status)
    (set : Row → Row) (hset : ∀ r, (set r).queueId = r.queueId) (event : ProvenanceEvent)
    (details : Json) (h : db.statusOf queueId ≠ some guard) :
    db.guardedUpdate now queueId guard set hset event details = (false, db) := by
  have hcount : db.queue.affected (fun r => r.queueId = queueId && r.status = guard) ≠ 1 := by
    rw [Table.affected_key db.queue queueId fun r => r.status = guard]
    cases hf : db.queue.find? queueId with
    | none => simp
    | some row =>
      have hs : row.status ≠ guard := by simpa [statusOf, hf] using h
      simp [hs]
  simp [guardedUpdate, hcount]

/-- `guardedUpdate` on a row that is in the guard state: that row alone is set,
and its event alone is written. -/
theorem guardedUpdate_hit (db : Database) (now : ℤ) (queueId : String) (guard : Status)
    (set : Row → Row) (hset : ∀ r, (set r).queueId = r.queueId) (event : ProvenanceEvent)
    (details : Json) (h : db.statusOf queueId = some guard) :
    (db.guardedUpdate now queueId guard set hset event details).1 = true ∧
    (∀ q, (db.guardedUpdate now queueId guard set hset event details).2.queue.find? q =
      if q = queueId then (db.queue.find? q).map set else db.queue.find? q) ∧
    (∀ q, (db.guardedUpdate now queueId guard set hset event details).2.history q =
      db.history q ++ if q = queueId then [event] else []) := by
  obtain ⟨row, hf, hs⟩ := Option.map_eq_some_iff.mp h
  have hcount : db.queue.affected (fun r => r.queueId = queueId && r.status = guard) = 1 := by
    rw [Table.affected_key db.queue queueId fun r => r.status = guard, hf]
    simp [hs]
  have hfind : ∀ q, (db.queue.updateWhere (fun r => r.queueId = queueId && r.status = guard)
      set hset).find? q = if q = queueId then (db.queue.find? q).map set else db.queue.find? q := by
    intro q
    rw [Table.find?_updateWhere]
    by_cases hq : q = queueId
    · subst hq
      have hk : row.queueId = q := Table.find?_key hf
      simp [hf, hk, hs]
    · cases hx : db.queue.find? q with
      | none => simp
      | some x =>
        have hxk : x.queueId ≠ queueId := fun he => hq ((Table.find?_key hx).symm.trans he)
        simp [hq, hxk]
  have hres : db.guardedUpdate now queueId guard set hset event details =
      (true, insertProvenance ⟨db.queue.updateWhere
        (fun r => r.queueId = queueId && r.status = guard) set hset, db.provenance⟩
        now queueId event details false) := by
    simp [guardedUpdate, hcount]
  rw [hres]
  refine ⟨rfl, fun q => ?_, fun q => ?_⟩
  · rw [insertProvenance_queue]
    exact hfind q
  · rw [insertProvenance_history]
    simp only [statusOf, hfind queueId, hf, if_true, Option.map_some, Option.isSome_some,
      and_true]
    rfl

theorem insertPending_spec {db db' : Database} {now : ℤ} {n : NewRow}
    (h : db.insertPending now n = some db') :
    (db.statusOf n.queueId = none) ∧
    (∀ q, db'.queue.find? q = if q = n.queueId then some (n.toRow now) else db.queue.find? q) ∧
    (∀ q, db'.history q = db.history q ++ if q = n.queueId then [.enqueued] else []) := by
  obtain ⟨queue, hq, rfl⟩ := Option.map_eq_some_iff.mp h
  refine ⟨?_, fun q => Table.find?_insert hq q, fun q => ?_⟩
  · have hne : ¬ (db.queue.find? n.queueId).isSome := by
      intro hs
      rw [(Table.insert_eq_none_iff (r := n.toRow now)).mpr hs] at hq
      cases hq
    simpa [statusOf] using hne
  · rw [history_append]
    simp only [eq_comm (a := n.queueId), and_true]
    rfl

end Database

end Jaiba.Repository
