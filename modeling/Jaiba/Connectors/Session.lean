import Jaiba.Connectors.Upsert

/-!
# Writes call by call (`connectors/*.rs`)

The five `DatabaseWriter`s as the calls they make on the server, any of which
may fail. A failed call has no effect, a transaction that is not committed is
gone with its session, and an `INSERT` over HTTP takes effect when it succeeds.
-/

namespace Jaiba.Connectors
open Jaiba.Lib

/-- The destination, the open transaction, and how many calls were made. -/
structure Wire where
  destination : List Row
  pending : List Row
  calls : ℕ
  deriving Inhabited

namespace Wire

def idle (w : Wire) : Wire := w

def begin (w : Wire) : Wire := { w with pending := [] }

def execute (rows : List Row) (w : Wire) : Wire := { w with pending := w.pending ++ rows }

def commit (w : Wire) : Wire := { w with destination := w.destination ++ w.pending, pending := [] }

/-- The session ends, or the transaction is rolled back. -/
def close (w : Wire) : Wire := { w with pending := [] }

def insert (rows : List Row) (w : Wire) : Wire := { w with destination := w.destination ++ rows }

end Wire

/-- The calls that fail, by their number. -/
abbrev Faults := ℕ → Option FlowError

abbrev Written := Except FlowError WriteSummary × Wire

def call (faults : Faults) (effect : Wire → Wire) (w : Wire) : Except FlowError Unit × Wire :=
  match faults w.calls with
  | some e => (.error e, { w with calls := w.calls + 1 })
  | none => (.ok (), { effect w with calls := w.calls + 1 })

/-- A loop that encodes each item and sends it; the first failure ends it. `count`
is what the item adds to the summary. -/
def sendEach {ι : Type} (faults : Faults) (send : List Row → Wire → Wire)
    (encode : ι → Except FlowError (List Row)) (count : ι → WriteSummary) :
    List ι → WriteSummary → Wire → Written
  | [], summary, w => (.ok summary, w)
  | item :: rest, summary, w =>
    match encode item with
    | .error e => (.error e, w)
    | .ok rows =>
      match call faults (send rows) w with
      | (.error e, w) => (.error e, w)
      | (.ok _, w) =>
        sendEach faults send encode count rest
          ⟨summary.rows + (count item).rows, summary.batches + (count item).batches⟩ w

/-- The commit that ends a transaction; without it the session closes. -/
def commitAfter (faults : Faults) : Written → Written
  | (.error e, w) => (.error e, w.close)
  | (.ok summary, w) =>
    match call faults Wire.commit w with
    | (.error e, w) => (.error e, w.close)
    | (.ok _, w) => (.ok summary, w)

/-- The calls that open a session come before the work. -/
def opened (faults : Faults) : List (Wire → Wire) → (Wire → Written) → Wire → Written
  | [], work, w => work w
  | effect :: rest, work, w =>
    match call faults effect w with
    | (.error e, w) => (.error e, w.close)
    | (.ok _, w) => opened faults rest work w

/-- What a piece of records adds to the summary. -/
def oneBatch (records : List Json) : WriteSummary := ⟨records.length, 1⟩

/-! ### PostgreSQL, MySQL and MariaDB -/

/-- `sqlx::query(..).execute` of one batch. -/
def Writer.encodeBatch (w : Writer) (request : WriteRequest) (records : List Json) :
    Except FlowError (List Row) :=
  (w.batch request records).map fun b => b.statement.proposed b.parameters

/-- `MySqlSession::acquire` takes a connection and reads its id before `begin`. -/
def Writer.opening : Writer → List (Wire → Wire)
  | .postgres => [Wire.begin]
  | .mySql | .mariaDb => [Wire.idle, Wire.idle, Wire.begin]

def Writer.writeCalls (w : Writer) (request : WriteRequest) (faults : Faults) (records : List Json)
    (wire : Wire) : Written :=
  match w.validate request with
  | .error e => (.error e, wire)
  | .ok () =>
    if records.isEmpty then (.ok ⟨0, 0⟩, wire)
    else
      opened faults w.opening (fun wire => commitAfter faults
        (sendEach faults Wire.execute (w.encodeBatch request) oneBatch
          (chunks (w.effectiveBatchSize request) records) ⟨0, 0⟩ wire)) wire

/-! ### Records of the other adapters -/

/-- The columns of a record under their quoted names. -/
def rowWith (kind : DatabaseKind) (bind : Json → Except FlowError Bound) (request : WriteRequest)
    (record : Json) : Except FlowError Row :=
  match record with
  | .object _ => do
    let columns ← quoteAll request.destinations kind.identifierDialect
    let values ← request.columns.keys.mapM fun field =>
      match record.get field with
      | none => .error (.configuration ("record is missing mapped field '" ++ field ++ "'"))
      | some value => bind value
    .ok (columns.zip values)
  | _ => .error (.configuration "put_database requires object records")

/-! ### Oracle -/

namespace OracleWriter

/-- `BindValue::from_json`: what is no `i64` is bound as text. -/
def bindValue : Json → Except FlowError Bound
  | .null => .ok .null
  | .bool b => .ok (.int (if b then 1 else 0))
  | .number (.posInt n) => .ok (if n ≤ i64Max then .int n else .text (Number.posInt n).render)
  | .number (.negInt n) => .ok (.int n)
  | .number (.float text) => .ok (.text text)
  | .string s => .ok (.text s)
  | .array items => .ok (.text (Json.array items).render)
  | .object fields => .ok (.text (Json.object fields).render)

def capabilities : WriteCapabilities := ⟨true, true, true, some 65535, true⟩

def insertStatement (request : WriteRequest) : Except FlowError String := do
  let table ← quoteQualifiedIdentifier request.table .doubleQuote
  let columns ← quoteAll request.destinations .doubleQuote
  let binds := (List.range' 1 columns.length).map fun index => ":" ++ toString index
  .ok ("INSERT INTO " ++ table ++ " (" ++ ", ".intercalate columns ++ ") VALUES (" ++
    ", ".intercalate binds ++ ")")

def mergeStatement (request : WriteRequest) : Except FlowError String := do
  let table ← quoteQualifiedIdentifier request.table .doubleQuote
  let columns ← quoteAll request.destinations .doubleQuote
  let sourceProjection := ", ".intercalate (columns.zipIdx.map fun c =>
    ":" ++ toString (c.2 + 1) ++ " AS " ++ c.1)
  let conflicts ← quoteAll request.conflictColumns .doubleQuote
  let equal := fun column => "destination." ++ column ++ " = source." ++ column
  let updates := (columns.filter fun column => column ∉ conflicts).map equal
  .ok ("MERGE INTO " ++ table ++ " destination USING (SELECT " ++ sourceProjection ++
    " FROM DUAL) source ON (" ++ " AND ".intercalate (conflicts.map equal) ++ ") " ++
    (if updates.isEmpty then "" else
      "WHEN MATCHED THEN UPDATE SET " ++ ", ".intercalate updates ++ " ") ++
    "WHEN NOT MATCHED THEN INSERT (" ++ ", ".intercalate columns ++ ") VALUES (" ++
    ", ".intercalate (columns.map fun column => "source." ++ column) ++ ")")

def statement (request : WriteRequest) : Except FlowError String :=
  match request.mode with
  | .insert => insertStatement request
  | .upsert => mergeStatement request

def row (request : WriteRequest) (record : Json) : Except FlowError Row :=
  rowWith .oracle bindValue request record

/-- Every record is bound before the first call; a session is acquired, given
its time-out and set up, and one array statement is executed for each chunk. -/
def writeCalls (request : WriteRequest) (faults : Faults) (records : List Json) (wire : Wire) :
    Written :=
  match validateWriteRequest request .oracle with
  | .error e => (.error e, wire)
  | .ok () =>
    if records.isEmpty then (.ok ⟨0, 0⟩, wire)
    else
      match statement request with
      | .error e => (.error e, wire)
      | .ok _ =>
        match records.mapM (row request) with
        | .error e => (.error e, wire)
        | .ok rows =>
          let chunkSize := max (buildWritePlan .oracle capabilities request).effectiveBatchSize 1
          opened faults [Wire.idle, Wire.idle, Wire.begin] (fun wire => commitAfter faults
            (sendEach faults Wire.execute (fun chunk => .ok chunk)
              (fun chunk => ⟨chunk.length, 1⟩) (chunks chunkSize rows) ⟨0, 0⟩ wire)) wire

end OracleWriter

/-! ### SQL Server -/

namespace SqlServerWriter

/-- `sqlserver_bind`. -/
def bind : Json → Except FlowError Bound
  | .null => .ok .null
  | .bool b => .ok (.bool b)
  | .number (.posInt n) =>
    if i64Max < n then .error (.configuration "unsigned integer exceeds SQL Server INT64")
    else .ok (.int n)
  | .number (.negInt n) => .ok (.int n)
  | .number (.float text) => .ok (.float text)
  | .string s => .ok (.text s)
  | .array items => .ok (.text (Json.array items).render)
  | .object fields => .ok (.text (Json.object fields).render)

def statement (request : WriteRequest) : Except FlowError String := do
  let table ← quoteQualifiedIdentifier request.table .bracket
  let columns ← quoteAll request.destinations .bracket
  let parameters := (List.range' 1 columns.length).map fun index => "@P" ++ toString index
  let values := " (" ++ ", ".intercalate columns ++ ") VALUES (" ++ ", ".intercalate parameters ++ ")"
  if request.mode = .insert then .ok ("INSERT INTO " ++ table ++ values)
  else do
    let conflicts ← quoteAll request.conflictColumns .bracket
    let equal := fun c : String × ℕ => c.1 ++ " = @P" ++ toString (c.2 + 1)
    let predicate := " AND ".intercalate ((columns.zipIdx.filter fun c => c.1 ∈ conflicts).map equal)
    let updates := (columns.zipIdx.filter fun c => c.1 ∉ conflicts).map equal
    .ok (if updates.isEmpty then
        "IF NOT EXISTS (SELECT 1 FROM " ++ table ++ " WITH (UPDLOCK, HOLDLOCK) WHERE " ++ predicate ++
          ") INSERT INTO " ++ table ++ values
      else
        "UPDATE " ++ table ++ " WITH (UPDLOCK, SERIALIZABLE) SET " ++ ", ".intercalate updates ++
          " WHERE " ++ predicate ++ "; IF @@ROWCOUNT = 0 INSERT INTO " ++ table ++ values)

def row (request : WriteRequest) (record : Json) : Except FlowError Row :=
  rowWith .sqlServer bind request record

/-- One statement a record; the last record of a batch counts the batch. -/
def countRecord (batch : List Json) : List (Json × WriteSummary) :=
  batch.mapIdx fun i record => (record, ⟨1, if i + 1 = batch.length then 1 else 0⟩)

/-- Two calls connect, `BEGIN TRANSACTION` is the third; a failure is rolled back
and the client goes with the call. -/
def writeCalls (request : WriteRequest) (faults : Faults) (records : List Json) (wire : Wire) :
    Written :=
  match validateWriteRequest request .sqlServer with
  | .error e => (.error e, wire)
  | .ok () =>
    if records.isEmpty then (.ok ⟨0, 0⟩, wire)
    else
      match statement request with
      | .error e => (.error e, wire)
      | .ok _ =>
        opened faults [Wire.idle, Wire.idle, Wire.begin] (fun wire => commitAfter faults
          (sendEach faults Wire.execute (fun item => (row request item.1).map fun r => [r]) Prod.snd
            ((chunks request.batchSize records).flatMap countRecord) ⟨0, 0⟩ wire)) wire

end SqlServerWriter

/-! ### ClickHouse -/

namespace ClickHouseWriter

def validate (request : WriteRequest) : Except FlowError Unit :=
  if request.mode = .upsert then
    .error (.configuration ("ClickHouse put_database supports mode=insert only (no classical upsert); " ++
      "use a ReplacingMergeTree / dedup table if needed"))
  else validateWriteRequest request .clickHouse

/-- `clamp(1, 100_000)`. -/
def effectiveBatchSize (request : WriteRequest) : ℕ := min (max request.batchSize 1) 100000

def insertSql (request : WriteRequest) : Except FlowError String := do
  let table ← quoteQualifiedIdentifier request.table .backtick
  let columns ← quoteAll request.destinations .backtick
  .ok ("INSERT INTO " ++ table ++ " (" ++ ", ".intercalate columns ++ ") FORMAT JSONEachRow")

def row (request : WriteRequest) (record : Json) : Except FlowError Row :=
  rowWith .clickHouse (fun value => .ok (.json value)) request record

/-- `records_to_json_each_row`. -/
def recordsToJsonEachRow (request : WriteRequest) (records : List Json) :
    Except FlowError (List Row) := records.mapM (row request)

/-- One `http_insert` for each batch. -/
def writeCalls (request : WriteRequest) (faults : Faults) (records : List Json) (wire : Wire) :
    Written :=
  match validate request with
  | .error e => (.error e, wire)
  | .ok () =>
    if records.isEmpty then (.ok ⟨0, 0⟩, wire)
    else
      match insertSql request with
      | .error e => (.error e, wire)
      | .ok _ =>
        sendEach faults Wire.insert (recordsToJsonEachRow request) oneBatch
          (chunks (effectiveBatchSize request) records) ⟨0, 0⟩ wire

end ClickHouseWriter

/-! ### The trait -/

namespace DatabaseKind

def validate (kind : DatabaseKind) (request : WriteRequest) : Except FlowError Unit :=
  match kind with
  | .clickHouse => ClickHouseWriter.validate request
  | _ => validateWriteRequest request kind

/-- A record as its row. -/
def row (kind : DatabaseKind) (request : WriteRequest) : Json → Except FlowError Row :=
  match kind with
  | .postgreSql => Writer.postgres.rowOf request
  | .mySql => Writer.mySql.rowOf request
  | .mariaDb => Writer.mariaDb.rowOf request
  | .oracle => OracleWriter.row request
  | .sqlServer => SqlServerWriter.row request
  | .clickHouse => ClickHouseWriter.row request

/-- `DatabaseWriter::write`. -/
def write (kind : DatabaseKind) (request : WriteRequest) (faults : Faults) (records : List Json)
    (wire : Wire) : Written :=
  match kind with
  | .postgreSql => Writer.postgres.writeCalls request faults records wire
  | .mySql => Writer.mySql.writeCalls request faults records wire
  | .mariaDb => Writer.mariaDb.writeCalls request faults records wire
  | .oracle => OracleWriter.writeCalls request faults records wire
  | .sqlServer => SqlServerWriter.writeCalls request faults records wire
  | .clickHouse => ClickHouseWriter.writeCalls request faults records wire

end DatabaseKind

end Jaiba.Connectors
