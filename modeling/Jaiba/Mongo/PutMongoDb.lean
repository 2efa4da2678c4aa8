import Jaiba.Lib.Batches
import Jaiba.Lib.Chunks
import Jaiba.Mongo.Bson
import Jaiba.Server.SqlBuilder

/-!
# Writes to MongoDB (`processors/put_mongodb.rs`)

Inserts go to the driver in chunks. Upserts are packed into `update` commands,
cut by the number of operations and by their bytes, and each command is sent
before the next document is looked at.
-/

namespace Jaiba.Mongo
open Jaiba.Lib

inductive MongoWriteMode where
  | insert
  | upsert
  deriving DecidableEq

structure PutMongoDb where
  connection : String
  collection : String
  mode : MongoWriteMode
  keyFields : List String
  batchSize : ℕ
  ordered : Bool
  batchSize_pos : 0 < batchSize
  keyed : mode = .upsert → keyFields ≠ []

/-- The options, after the defaults of the parser. -/
structure PutMongoDbConfig where
  connection : String
  collection : String
  mode : MongoWriteMode := .insert
  keyFields : List String := ["_id"]
  batchSize : ℕ := 1000
  ordered : Bool := true

def isBlank (s : String) : Bool := (Server.SqlBuilder.trim s.toList).isEmpty

def PutMongoDb.fromConfig (config : PutMongoDbConfig) : Except FlowError PutMongoDb :=
  if isBlank config.connection then
    .error (.configuration "put_mongodb requires a connection")
  else if isBlank config.collection then
    .error (.configuration "put_mongodb requires a collection")
  else if hbatch : config.batchSize = 0 then
    .error (.configuration "put_mongodb batch_size must be greater than zero")
  else if hkeys : config.mode = .upsert ∧ (config.keyFields = [] ∨ config.keyFields.any isBlank = true) then
    .error (.configuration "put_mongodb upsert requires non-empty key_fields")
  else .ok
    { connection := config.connection
      collection := config.collection
      mode := config.mode
      keyFields := config.keyFields
      batchSize := config.batchSize
      ordered := config.ordered
      batchSize_pos := Nat.pos_of_ne_zero hbatch
      keyed := fun hmode hnone => hkeys ⟨hmode, .inl hnone⟩ }

/-! ### Operations -/

/-- One entry of `updates`, before its wrapper. -/
structure Operation where
  filter : Document
  document : Document

namespace Operation

/-- `{q, u, upsert: true}`. -/
def toDocument (o : Operation) : Document :=
  [("q", .document o.filter), ("u", .document o.document), ("upsert", .boolean true)]

/-- What the loop counts of an operation. -/
def size (o : Operation) : ℕ := o.document.size + o.filter.size

end Operation

def documentSize (crate : Crate) (document : Document) : Except FlowError ℕ :=
  match crate.unencodable document with
  | some error => .error (.databaseRejected ("put_mongodb record: " ++ error))
  | none => .ok document.size

structure Command where
  collection : String
  updates : List Operation
  ordered : Bool

def Command.toDocument (c : Command) : Document :=
  [("update", .string c.collection),
    ("updates", .array (c.updates.map fun o => .document o.toDocument)),
    ("ordered", .boolean c.ordered)]

def upsertCommandBytes : ℕ := 15 * 1024 * 1024

/-! ### Replies -/

/-- `TRANSIENT_MONGODB_CODES`. -/
def transientMongodbCodes : List ℤ :=
  [6, 7, 24, 43, 46, 50, 64, 89, 91, 112, 133, 134, 175, 189, 202, 237, 262, 391, 9001, 10058, 10107, 11600,
    11601, 11602, 13435, 13436, 16500]

def isTransientCode (code : ℤ) : Bool := code ∈ transientMongodbCodes

/-- `get_i32(key).unwrap_or_default()` of an entry that should be a document. -/
def i32Field (entry : Bson) (key : String) : ℤ :=
  match (entry.asDocument.bind fun d => d.get key) with
  | some (.int32 n) => n
  | _ => 0

def errmsgOf (entry : Bson) : String :=
  match (entry.asDocument.bind fun d => d.get "errmsg") with
  | some (.string s) => s
  | _ => "unknown error"

/-- The position of a failed operation in its command, as a `usize`. -/
def errorIndex (entry : Bson) : ℕ := ((i32Field entry "index") % 2 ^ 64).toNat

def writeErrorMessage (first : Bson) (errors : List Bson) (record : ℕ) : String :=
  let codes := (first :: errors).filter fun error => error.asDocument.isSome
  "put_mongodb upsert: " ++ toString (first :: errors).length ++ " write error(s); record " ++
    toString record ++ ": code " ++ toString ((codes.map fun error => i32Field error "code").headD 0) ++
    " (" ++ errmsgOf first ++ ")"

def upsertReply (reply : Document) (firstIndex : ℕ) : Except FlowError ℕ :=
  match reply.get "writeErrors" with
  | some (.array (first :: errors)) =>
    let message := writeErrorMessage first errors (firstIndex + errorIndex first)
    .error (if ((first :: errors).filter fun error => error.asDocument.isSome).all fun error =>
        isTransientCode (i32Field error "code")
      then .databaseConnector message else .databaseRejected message)
  | _ =>
    match reply.get "writeConcernError" with
    | some (.document error) =>
      .error (.databaseConnector ("put_mongodb upsert write concern error: code " ++
        toString (i32Field (.document error) "code") ++ " (" ++ errmsgOf (.document error) ++ ")"))
    | _ =>
      match reply.get "n" with
      | some (.int32 n) => .ok n.toNat
      | some (.int64 n) => .ok n.toNat
      | _ => .ok 0

/-! ### The writer -/

/-- A call on the driver; an `update` with the index of its first record. -/
inductive Sent where
  | insertMany (documents : List Document)
  | update (firstIndex : ℕ) (command : Command)

def Sent.documents : Sent → List Document
  | .insertMany documents => documents
  | .update _ command => command.updates.map Operation.document

/-- What the driver answers to its n-th call. -/
structure Driver where
  insertMany : ℕ → List Document → Except FlowError ℕ
  runCommand : ℕ → Command → Except FlowError Document

/-- The documents and the batches written, or the error; and the calls made. -/
abbrev Outcome := Except FlowError (ℕ × ℕ) × List Sent

/-- The variables of the loop of `upsert_documents`. -/
structure Upserting where
  written : ℕ
  batches : ℕ
  updates : List Operation
  firstIndex : ℕ
  bytes : ℕ
  sent : List Sent

namespace PutMongoDb

variable (p : PutMongoDb) (crate : Crate) (driver : Driver)

/-- One key field of the filter. -/
def addKey (document : Document) (index : ℕ) (filter : Document) (field : String) :
    Except FlowError Document :=
  match valueAtPath document field with
  | none => .error (.databaseRejected
      ("put_mongodb upsert record " ++ toString index ++ " is missing key field '" ++ field ++ "'"))
  | some value => .ok (filter.insert field value)

def upsertFilter (document : Document) (index : ℕ) : Except FlowError Document :=
  p.keyFields.foldlM (addKey document index) []

/-- The filter and the sizes that the loop computes for a document. -/
def operation (index : ℕ) (document : Document) : Except FlowError Operation := do
  let filter ← p.upsertFilter document index
  let _ ← documentSize crate document
  let _ ← documentSize crate filter
  .ok ⟨filter, document⟩

def command (updates : List Operation) : Command := ⟨p.collection, updates, p.ordered⟩

def runUpsert (s : Upserting) : Except FlowError ℕ × List Sent :=
  (match driver.runCommand s.sent.length (p.command s.updates) with
    | .error e => .error e
    | .ok reply => upsertReply reply s.firstIndex,
    s.sent ++ [.update s.firstIndex (p.command s.updates)])

def upsertFrom : ℕ → List Document → Upserting → Outcome
  | _, [], s =>
    if s.updates.isEmpty then (.ok (s.written, s.batches), s.sent)
    else
      match p.runUpsert driver s with
      | (.error e, sent) => (.error e, sent)
      | (.ok n, sent) => (.ok (s.written + n, s.batches + 1), sent)
  | index, document :: rest, s =>
    match p.operation crate index document with
    | .error e => (.error e, s.sent)
    | .ok o =>
      if !s.updates.isEmpty &&
          (s.updates.length == p.batchSize || decide (upsertCommandBytes < s.bytes + o.size)) then
        match p.runUpsert driver s with
        | (.error e, sent) => (.error e, sent)
        | (.ok n, sent) =>
          upsertFrom (index + 1) rest ⟨s.written + n, s.batches + 1, [o], index, o.size, sent⟩
      else
        upsertFrom (index + 1) rest
          { s with bytes := s.bytes + o.size, updates := s.updates ++ [o] }

def upsertDocuments (documents : List Document) : Outcome :=
  p.upsertFrom crate driver 0 documents ⟨0, 0, [], 0, 0, []⟩

def insertFrom : List (List Document) → ℕ × ℕ → List Sent → Outcome
  | [], summary, sent => (.ok summary, sent)
  | batch :: rest, summary, sent =>
    match driver.insertMany sent.length batch with
    | .error e => (.error e, sent ++ [.insertMany batch])
    | .ok n => insertFrom rest (summary.1 + n, summary.2 + 1) (sent ++ [.insertMany batch])

def insertDocuments (documents : List Document) : Outcome :=
  insertFrom driver (chunks p.batchSize documents) (0, 0) []

/-- The conversion of the records, each with its index in the packet. -/
def recordDocuments : ℕ → List Json → Except FlowError (List Document)
  | _, [] => .ok []
  | index, record :: rest => do
    let document ← recordDocument crate record ("put_mongodb record " ++ toString index)
    let documents ← recordDocuments (index + 1) rest
    .ok (document :: documents)

/-- `write_records`. -/
def writeRecords (records : List Json) : Outcome :=
  match recordDocuments crate 0 records with
  | .error e => (.error e, [])
  | .ok documents =>
    match p.mode with
    | .insert => p.insertDocuments driver documents
    | .upsert => p.upsertDocuments crate driver documents

end PutMongoDb

end Jaiba.Mongo
