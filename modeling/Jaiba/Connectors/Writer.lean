import Jaiba.Connectors.Database
import Jaiba.Json
import Jaiba.Lib.Chunks

/-!
# PostgreSQL and MySQL writers (`connectors/postgres.rs`, `connectors/mysql.rs`)

A writer cuts the records into batches and sends one multi-row statement for each,
in one transaction. A statement is kept as its parts beside its text; a `Target`
is the destination as the server has it.
-/

namespace Jaiba.Connectors
open Jaiba.Lib

/-- `MySqlWriter` serves MySQL and MariaDB. -/
inductive Writer where
  | postgres
  | mySql
  | mariaDb
  deriving DecidableEq

def Writer.kind : Writer → DatabaseKind
  | .postgres => .postgreSql
  | .mySql => .mySql
  | .mariaDb => .mariaDb

def Writer.capabilities : Writer → WriteCapabilities
  | .postgres => ⟨true, true, true, some 65535, true⟩
  | .mySql | .mariaDb => ⟨true, true, true, some 65535, false⟩

/-! ### Statements -/

/-- What a statement says of a proposed row whose key is taken. -/
inductive Conflict where
  | unspecified
  | doNothing (conflicts : List String)
  | doUpdate (conflicts updates : List String)
  | keep (conflict : String)
  | overwrite (updates : List String)
  deriving DecidableEq

/-- `rows` holds the numbers of the parameters of each row of `VALUES`. -/
structure Statement where
  table : String
  columns : List String
  rows : List (List ℕ)
  conflict : Conflict
  deriving DecidableEq

def Conflict.text : Conflict → String
  | .unspecified => ""
  | .doNothing conflicts => " ON CONFLICT (" ++ ", ".intercalate conflicts ++ ") DO NOTHING"
  | .doUpdate conflicts updates => " ON CONFLICT (" ++ ", ".intercalate conflicts ++ ") DO UPDATE SET " ++
    ", ".intercalate (updates.map fun quoted => quoted ++ " = EXCLUDED." ++ quoted)
  | .keep conflict => " ON DUPLICATE KEY UPDATE " ++ conflict ++ " = " ++ conflict
  | .overwrite updates => " ON DUPLICATE KEY UPDATE " ++
    ", ".intercalate (updates.map fun quoted => quoted ++ " = VALUES(" ++ quoted ++ ")")

def Writer.placeholder (number : ℕ) : Writer → String
  | .postgres => "$" ++ toString number
  | .mySql | .mariaDb => "?"

def Statement.text (s : Statement) (w : Writer) : String :=
  "INSERT INTO " ++ s.table ++ " (" ++ ", ".intercalate s.columns ++ ") VALUES " ++
    ", ".intercalate (s.rows.map fun row =>
      "(" ++ ", ".intercalate (row.map fun number => w.placeholder number) ++ ")") ++ s.conflict.text

/-- The counter `parameter` of the loops over rows and columns; MySQL counts the question marks. -/
def parameterRows (columns : ℕ) : ℕ → ℕ → List (List ℕ)
  | _, 0 => []
  | parameter, rows + 1 => List.range' parameter columns :: parameterRows columns (parameter + columns) rows

def quoteAll (names : List String) (dialect : IdentifierDialect) : Except FlowError (List String) :=
  names.mapM fun name => quoteIdentifier name dialect

/-- The destination columns outside of the key. -/
def WriteRequest.updates (request : WriteRequest) : List String :=
  request.destinations.filter fun column => column ∉ request.conflictColumns

namespace PostgresWriter

def effectiveBatchSize (request : WriteRequest) : ℕ :=
  let columns := max request.columns.entries.length 1
  let parameterLimit := (Writer.postgres.capabilities.maximumParameters).getD 65535
  min request.batchSize (max (parameterLimit / columns) 1)

def conflict (request : WriteRequest) : Except FlowError Conflict :=
  if request.mode = .upsert then do
    let conflicts ← quoteAll request.conflictColumns .doubleQuote
    let updates ← quoteAll request.updates .doubleQuote
    .ok (if updates.isEmpty then .doNothing conflicts else .doUpdate conflicts updates)
  else .ok .unspecified

def statement (request : WriteRequest) (rows : ℕ) : Except FlowError Statement := do
  let table ← quoteQualifiedIdentifier request.table .doubleQuote
  let columns ← quoteAll request.destinations .doubleQuote
  let conflict ← conflict request
  .ok ⟨table, columns, parameterRows columns.length 1 rows, conflict⟩

end PostgresWriter

namespace MySqlWriter

def effectiveBatchSize (request : WriteRequest) : ℕ :=
  min request.batchSize (max (65535 / max request.columns.entries.length 1) 1)

/-- A valid upsert has a first conflict column. -/
def conflict (request : WriteRequest) : Except FlowError Conflict :=
  if request.mode = .upsert then do
    let updates ← quoteAll request.updates .backtick
    if updates.isEmpty then
      (quoteIdentifier (request.conflictColumns.headD "") .backtick).map .keep
    else .ok (.overwrite updates)
  else .ok .unspecified

def statement (request : WriteRequest) (rows : ℕ) : Except FlowError Statement := do
  let table ← quoteQualifiedIdentifier request.table .backtick
  let columns ← quoteAll request.destinations .backtick
  let conflict ← conflict request
  .ok ⟨table, columns, parameterRows columns.length 1 rows, conflict⟩

end MySqlWriter

namespace Writer

def effectiveBatchSize (request : WriteRequest) : Writer → ℕ
  | .postgres => PostgresWriter.effectiveBatchSize request
  | .mySql | .mariaDb => MySqlWriter.effectiveBatchSize request

def conflict (request : WriteRequest) : Writer → Except FlowError Conflict
  | .postgres => PostgresWriter.conflict request
  | .mySql | .mariaDb => MySqlWriter.conflict request

def statement (request : WriteRequest) (rows : ℕ) : Writer → Except FlowError Statement
  | .postgres => PostgresWriter.statement request rows
  | .mySql | .mariaDb => MySqlWriter.statement request rows

def validate (request : WriteRequest) (w : Writer) : Except FlowError Unit :=
  validateWriteRequest request w.kind

def plan (request : WriteRequest) (w : Writer) : Except FlowError WritePlan := do
  w.validate request
  .ok (buildWritePlan w.kind w.capabilities request)

end Writer

/-! ### Parameters -/

inductive Bound where
  | null
  | bool (b : Bool)
  | int (n : ℤ)
  | float (text : String)
  | text (s : String)
  | json (value : Json)

def i64Max : ℕ := 2 ^ 63 - 1

/-- `bind_json`; MySQL has unsigned integers. -/
def Writer.bindJson (w : Writer) : Json → Except FlowError Bound
  | .null => .ok .null
  | .bool b => .ok (.bool b)
  | .number (.posInt n) =>
    if i64Max < n ∧ w = .postgres then
      .error (.configuration "unsigned integer exceeds PostgreSQL BIGINT")
    else .ok (.int n)
  | .number (.negInt n) => .ok (.int n)
  | .number (.float text) => .ok (.float text)
  | .string s => .ok (.text s)
  | .array items => .ok (.json (.array items))
  | .object fields => .ok (.json (.object fields))

/-- One mapped field of a record. -/
def Writer.bindField (w : Writer) (record : Json) (sourceField : String) : Except FlowError Bound :=
  match record.get sourceField with
  | none => .error (.configuration ("record is missing mapped field '" ++ sourceField ++ "'"))
  | some value => w.bindJson value

def Writer.bindRecord (w : Writer) (request : WriteRequest) (record : Json) : Except FlowError (List Bound) :=
  match record with
  | .object _ => request.columns.keys.mapM (w.bindField record)
  | _ => .error (.configuration "put_database requires object records")

/-! ### The server -/

abbrev Row := List (String × Bound)

/-- `key` is what the unique index on the conflict columns holds for a row, nothing if a
part of it is NULL; `propose` is the effect of a statement that proposes one row. -/
structure Target (τ κ : Type) where
  key : Row → Option κ
  propose : Conflict → τ → Row → Except FlowError τ

def Statement.proposed (s : Statement) (parameters : List Bound) : List Row :=
  s.rows.map fun numbers => s.columns.zip (numbers.map fun number => parameters.getD (number - 1) .null)

variable {τ κ : Type} [DecidableEq κ]

/-- A statement proposes its rows one after the other; `DO UPDATE` refuses two with one key. -/
def Target.execute (target : Target τ κ) (s : Statement) (parameters : List Bound) (t : τ) : Except FlowError τ :=
  let rows := s.proposed parameters
  match s.conflict with
  | .doUpdate conflicts updates =>
    if (rows.filterMap target.key).Nodup then rows.foldlM (target.propose (.doUpdate conflicts updates)) t
    else .error (.database "ON CONFLICT DO UPDATE command cannot affect row a second time")
  | conflict => rows.foldlM (target.propose conflict) t

structure Batch where
  statement : Statement
  parameters : List Bound

namespace Writer

variable (w : Writer) (target : Target τ κ) (request : WriteRequest)

def batch (records : List Json) : Except FlowError Batch := do
  let statement ← w.statement request records.length
  let values ← records.mapM (w.bindRecord request)
  .ok ⟨statement, values.flatten⟩

/-- The loop of `write` over the batches. -/
def writeBatches : List (List Json) → WriteSummary → τ → Except FlowError (WriteSummary × τ)
  | [], summary, t => .ok (summary, t)
  | records :: rest, summary, t => do
    let batch ← w.batch request records
    let t ← target.execute batch.statement batch.parameters t
    writeBatches rest ⟨summary.rows + records.length, summary.batches + 1⟩ t

/-- `write`: an error rolls the transaction back. -/
def write (records : List Json) (t : τ) : Except FlowError WriteSummary × τ :=
  match w.validate request with
  | .error e => (.error e, t)
  | .ok () =>
    if records.isEmpty then (.ok ⟨0, 0⟩, t)
    else
      match w.writeBatches target request (chunks (w.effectiveBatchSize request) records) ⟨0, 0⟩ t with
      | .error e => (.error e, t)
      | .ok (summary, t') => (.ok summary, t')

end Writer

end Jaiba.Connectors
