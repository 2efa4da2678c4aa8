import Mathlib.Data.List.Sort
import Jaiba.Error
import Jaiba.Lib.Except
import Jaiba.Repository.Database

/-!
# Packet content and rows (`engine/repository.rs`)

How `enqueue` turns a packet into a row and a content file, and how `pending`
turns them back. The content directory is addressed by the SHA-256 of its files.
-/

namespace Jaiba.Repository
open Jaiba.Lib

variable (codec : Codec)

/-- The `.bin` files of the content directory by key. -/
abbrev Files := String → Option Bytes

/-- `serialize_content`: kind, media type and bytes. -/
def serializeContent : PacketContent → String × Option String × Bytes
  | .records records => ("records", some "application/json", codec.recordsToVec records)
  | .encoded mediaType bytes => ("encoded", some mediaType, bytes)

def deserializeContent (kind : String) (mediaType : Option String) (bytes : Bytes) :
    Except FlowError PacketContent :=
  if kind = "records" then
    match codec.recordsFromSlice bytes with
    | some records => .ok (.records records)
    | none => .error (.repository "content is not a JSON array of records")
  else if kind = "encoded" then
    .ok (.encoded (mediaType.getD "application/octet-stream") bytes)
  else .error (.repository ("unknown content kind '" ++ kind ++ "'"))

/-- `LocalContentRepository::get`. -/
def Files.get (files : Files) (key : String) : Except FlowError Bytes :=
  match files key with
  | none => .error (.io "No such file or directory (os error 2)")
  | some bytes =>
    if codec.hexDigest bytes ≠ key then
      .error (.repository ("content checksum mismatch for '" ++ key ++ "'"))
    else .ok bytes

/-- The attributes `enqueue` copies into the `ENQUEUED` event. -/
def operational (key : String) : Bool :=
  "kafka.".isPrefixOf key || "write.".isPrefixOf key || "error.".isPrefixOf key

/-- The row `enqueue` inserts for a packet. -/
def newRow (queueId flowId processorId relationship : String) (packet : DataPacket) :
    Database.NewRow :=
  let content := serializeContent codec packet.content
  { queueId := queueId
    packetId := packet.id
    flowId := flowId
    processorId := processorId
    relationship := relationship
    attempt := packet.attempt
    attributesJson := codec.attributesToString packet.attributes
    schemaJson := packet.schema.map codec.schemaToString
    contentKey := codec.hexDigest content.2.2
    contentKind := content.1
    mediaType := content.2.1
    contentSize := content.2.2.length
    attributeCount := packet.attributes.length
    operationalAttributes := packet.attributes.filter fun kv => operational kv.1 }

/-- Persistent work item reconstructed after startup. -/
structure StoredWork where
  queueId : String
  flowId : String
  processorId : String
  relationship : String
  packet : DataPacket

/-- The body of the loop of `pending`: one row back to a packet. -/
def materialize (files : Files) (row : Row) : Except FlowError StoredWork := do
  let bytes ← files.get codec row.contentKey
  let content ← deserializeContent codec row.contentKind row.mediaType bytes
  let attributes ← match codec.attributesFromStr row.attributesJson with
    | some attributes => .ok attributes
    | none => .error (.repository "attributes are not a JSON object of strings")
  let schema ← match row.schemaJson with
    | none => .ok none
    | some json =>
      match codec.schemaFromStr json with
      | some schema => .ok (some schema)
      | none => .error (.repository "schema is not a record schema")
  let id ← match codec.parseUuid row.packetId with
    | some id => .ok id
    | none => .error (.repository "packet id is not a UUID")
  return { queueId := row.queueId, flowId := row.flowId, processorId := row.processorId
           relationship := row.relationship
           packet := { id := id, attributes := attributes, content := content, schema := schema
                       attempt := row.attempt % 2 ^ 32 } }

/-- `ORDER BY created_at, queue_id` on text keys compared bytewise. -/
def rowBefore (a b : Row) : Bool :=
  a.createdAt < b.createdAt || (a.createdAt = b.createdAt && a.queueId ≤ b.queueId)

/-- The rows `pending` selects, in its order. -/
def pendingRows (db : Database) (flowId : String) : List Row :=
  (db.queue.rows.filter fun r => r.flowId = flowId && r.status = .pending).insertionSort
    fun a b => rowBefore a b

/-- `pending`: the first row that does not materialise fails the whole call. -/
def pending (files : Files) (db : Database) (flowId : String) :
    Except FlowError (List StoredWork) :=
  (pendingRows db flowId).mapM (materialize codec files)

theorem materialize_ok {files : Files} {row : Row} {stored : StoredWork}
    (h : materialize codec files row = .ok stored) :
    stored.queueId = row.queueId ∧ stored.processorId = row.processorId := by
  simp only [materialize, bind, Except.bind, pure, Except.pure] at h
  repeat' split at h
  all_goals cases h
  all_goals exact ⟨rfl, rfl⟩

/-- `pending` materialises every row it selects, in its order. -/
theorem pending_ok {files : Files} {db : Database} {flowId : String} {stored : List StoredWork}
    (h : pending codec files db flowId = .ok stored) :
    List.Forall₂ (fun row w => materialize codec files row = .ok w) (pendingRows db flowId)
      stored := by
  exact mapM_ok_iff.mp h

theorem pendingRows_perm (db : Database) (flowId : String) :
    (pendingRows db flowId).Perm
      (db.queue.rows.filter fun r => r.flowId = flowId && r.status = .pending) :=
  List.perm_insertionSort _ _

theorem pendingRows_status {db : Database} {flowId : String} {row : Row}
    (h : row ∈ pendingRows db flowId) : db.statusOf row.queueId = some .pending := by
  have hmem := (pendingRows_perm db flowId).subset h
  rw [List.mem_filter, Bool.and_eq_true, decide_eq_true_eq, decide_eq_true_eq] at hmem
  rw [Database.statusOf, Table.find?_of_mem hmem.1, Option.map_some, hmem.2.2]

theorem pendingRows_nodup (db : Database) (flowId : String) :
    ((pendingRows db flowId).map Row.queueId).Nodup := by
  rw [((pendingRows_perm db flowId).map Row.queueId).nodup_iff]
  exact db.queue.primaryKey.sublist (List.filter_sublist.map Row.queueId)

/-- The foreign functions as they behave on a packet without records, attributes
and schema. -/
def exampleCodec : Codec where
  hexDigest := fun bytes =>
    if bytes = [91, 93] then "4f53cda18c2baa0c0354bb5f9a3ecbe5ed12ab4d8e11ba873c2f11161202b945"
    else ""
  recordsToVec := fun records =>
    (Json.render (.array records)).toList.map fun c => UInt8.ofNat c.toNat
  recordsFromSlice := fun bytes => if bytes = [91, 93] then some [] else none
  attributesToString := fun attributes => if attributes.isEmpty then "\x7b\x7d" else ""
  attributesFromStr := fun text => if text = "\x7b\x7d" then some [] else none
  schemaToString := fun _ => ""
  schemaFromStr := fun _ => none
  parseUuid := fun text => if text.length = 36 then some text else none
  sizeOfPacket := 168

def examplePacket : DataPacket := .empty "6f9619ff-8b86-4d11-b42d-00cf4fc964ff"

end Jaiba.Repository
