import Jaiba.Error
import Jaiba.Lib.Dict

/-!
# Writes to a database (`connectors/database.rs`)

The request that a writer gets, the checks that all writers share and the plan
that is announced before a write.
-/

namespace Jaiba.Connectors
open Jaiba.Lib

inductive DatabaseKind where
  | postgreSql
  | mySql
  | mariaDb
  | oracle
  | sqlServer
  | clickHouse
  deriving DecidableEq

inductive IdentifierDialect where
  | doubleQuote
  | backtick
  | bracket
  deriving DecidableEq

def DatabaseKind.identifierDialect : DatabaseKind → IdentifierDialect
  | .postgreSql | .oracle => .doubleQuote
  | .mySql | .mariaDb | .clickHouse => .backtick
  | .sqlServer => .bracket

inductive WriteMode where
  | insert
  | upsert
  deriving DecidableEq

structure WriteCapabilities where
  transactions : Bool
  bulkInsert : Bool
  nativeUpsert : Bool
  maximumParameters : Option ℕ
  returning : Bool

inductive WriteStrategy where
  | multiRowInsert
  | transactionalRowInsert
  | nativeUpsert
  | transactionalUpsert
  deriving DecidableEq

structure WritePlan where
  database : DatabaseKind
  mode : WriteMode
  strategy : WriteStrategy
  requestedBatchSize : ℕ
  effectiveBatchSize : ℕ
  transactional : Bool
  deriving DecidableEq

/-- `columns` maps the fields of a record to the columns of the destination. -/
structure WriteRequest where
  table : String
  mode : WriteMode
  columns : OrderedDict String String
  conflictColumns : List String
  batchSize : ℕ

/-- The destination columns, in the order of the fields. -/
def WriteRequest.destinations (request : WriteRequest) : List String := request.columns.entries.map Prod.snd

structure WriteSummary where
  rows : ℕ
  batches : ℕ
  deriving DecidableEq

def buildWritePlan (database : DatabaseKind) (capabilities : WriteCapabilities) (request : WriteRequest) :
    WritePlan where
  database := database
  mode := request.mode
  strategy :=
    match request.mode, capabilities.bulkInsert, capabilities.nativeUpsert with
    | .insert, true, _ => .multiRowInsert
    | .insert, false, _ => .transactionalRowInsert
    | .upsert, _, true => .nativeUpsert
    | .upsert, _, false => .transactionalUpsert
  requestedBatchSize := request.batchSize
  effectiveBatchSize :=
    if capabilities.bulkInsert then
      match capabilities.maximumParameters with
      | some limit => min request.batchSize (max (limit / max request.columns.entries.length 1) 1)
      | none => request.batchSize
    else request.batchSize
  transactional := capabilities.transactions

/-! ### Identifiers -/

def quoteIdentifier (value : String) (dialect : IdentifierDialect) : Except FlowError String :=
  if value.isEmpty || 128 < value.utf8ByteSize || !value.toList.all fun c => c.isAlphanum || c == '_' then
    .error (.configuration ("invalid SQL identifier '" ++ value ++ "'"))
  else .ok (match dialect with
    | .doubleQuote => "\"" ++ value ++ "\""
    | .backtick => "`" ++ value ++ "`"
    | .bracket => "[" ++ value ++ "]")

/-- A name of up to three parts, between dots. -/
def quoteQualifiedIdentifier (value : String) (dialect : IdentifierDialect) : Except FlowError String :=
  let parts := (value.toList.splitOn '.').map String.ofList
  if parts.isEmpty || 3 < parts.length then
    .error (.configuration ("invalid qualified SQL identifier '" ++ value ++ "'"))
  else (parts.mapM fun part => quoteIdentifier part dialect).map fun quoted => ".".intercalate quoted

/-! ### Validation -/

/-- The loop over the destination columns. -/
def checkDestinations (dialect : IdentifierDialect) : List String → List String → Except FlowError Unit
  | _, [] => .ok ()
  | seen, column :: rest => do
    let _ ← quoteIdentifier column dialect
    if column ∈ seen then
      .error (.configuration ("destination column '" ++ column ++ "' is mapped more than once"))
    else checkDestinations dialect (column :: seen) rest

/-- The loop over the conflict columns. -/
def checkConflicts (dialect : IdentifierDialect) (destinations : List String) :
    List String → List String → Except FlowError Unit
  | _, [] => .ok ()
  | seen, conflict :: rest => do
    let _ ← quoteIdentifier conflict dialect
    if conflict ∈ seen then
      .error (.configuration ("conflict column '" ++ conflict ++ "' is repeated"))
    else if conflict ∉ destinations then
      .error (.configuration ("conflict column '" ++ conflict ++ "' is not a mapped destination column"))
    else checkConflicts dialect destinations (conflict :: seen) rest

def checkBatch (request : WriteRequest) : Except FlowError Unit :=
  if request.batchSize = 0 then
    .error (.configuration "put_database batch_size must be greater than zero")
  else if request.mode = .upsert ∧ request.conflictColumns = [] then
    .error (.configuration "upsert requires conflict_columns")
  else .ok ()

def checkColumns (request : WriteRequest) : Except FlowError Unit :=
  if request.columns.entries.isEmpty then
    .error (.configuration "put_database requires at least one column mapping")
  else .ok ()

def validateWriteRequest (request : WriteRequest) (kind : DatabaseKind) : Except FlowError Unit := do
  let _ ← quoteQualifiedIdentifier request.table kind.identifierDialect
  checkColumns request
  checkDestinations kind.identifierDialect [] request.destinations
  checkBatch request
  checkConflicts kind.identifierDialect request.destinations [] request.conflictColumns

theorem checkDestinations_ok {dialect : IdentifierDialect} {seen columns : List String}
    (h : checkDestinations dialect seen columns = .ok ()) :
    ∀ column ∈ columns, ∃ quoted, quoteIdentifier column dialect = .ok quoted := by
  induction columns generalizing seen with
  | nil =>
    intro column hmem
    cases hmem
  | cons column rest ih =>
    obtain ⟨quoted, hquoted, h⟩ := bind_ok h
    split at h
    · cases h
    · exact List.forall_mem_cons.mpr ⟨⟨quoted, hquoted⟩, ih h⟩

theorem checkConflicts_ok {dialect : IdentifierDialect} {destinations seen conflicts : List String}
    (h : checkConflicts dialect destinations seen conflicts = .ok ()) :
    ∀ conflict ∈ conflicts, ∃ quoted, quoteIdentifier conflict dialect = .ok quoted := by
  induction conflicts generalizing seen with
  | nil =>
    intro conflict hmem
    cases hmem
  | cons conflict rest ih =>
    obtain ⟨quoted, hquoted, h⟩ := bind_ok h
    split at h
    · cases h
    · split at h
      · cases h
      · exact List.forall_mem_cons.mpr ⟨⟨quoted, hquoted⟩, ih h⟩

/-- What a valid request promises the writer. -/
structure Valid (request : WriteRequest) (kind : DatabaseKind) : Prop where
  table : ∃ quoted, quoteQualifiedIdentifier request.table kind.identifierDialect = .ok quoted
  columns : 0 < request.columns.entries.length
  destinations : ∀ column ∈ request.destinations,
    ∃ quoted, quoteIdentifier column kind.identifierDialect = .ok quoted
  batchSize : 0 < request.batchSize
  keyed : request.mode = .upsert → request.conflictColumns ≠ []
  conflicts : ∀ conflict ∈ request.conflictColumns,
    ∃ quoted, quoteIdentifier conflict kind.identifierDialect = .ok quoted

theorem validateWriteRequest_ok {request : WriteRequest} {kind : DatabaseKind}
    (h : validateWriteRequest request kind = .ok ()) : Valid request kind := by
  obtain ⟨table, htable, h⟩ := bind_ok h
  obtain ⟨_, hcolumns, h⟩ := bind_ok h
  obtain ⟨_, hdestinations, h⟩ := bind_ok h
  obtain ⟨_, hbatch, hconflicts⟩ := bind_ok h
  rw [checkBatch] at hbatch
  split at hbatch
  · cases hbatch
  next hzero =>
    split at hbatch
    · cases hbatch
    next hkeyed =>
      refine ⟨⟨table, htable⟩, ?_, checkDestinations_ok hdestinations, Nat.pos_of_ne_zero hzero,
        fun hmode hnone => hkeyed ⟨hmode, hnone⟩, checkConflicts_ok hconflicts⟩
      rw [checkColumns] at hcolumns
      split at hcolumns
      · cases hcolumns
      next hne => exact List.length_pos_iff.mpr fun hnil => hne (List.isEmpty_iff.mpr hnil)

end Jaiba.Connectors
