import Mathlib.Data.PNat.Notation
import Jaiba.Connectors.Writer
import Jaiba.Server.SqlBuilder

/-!
# SQL sources (`query_postgres.rs`, `query_mysql.rs`, `query_sqlserver.rs`)

What the three processors accept as their configuration. They check their
parameters the same way, each under its own name.
-/

namespace Jaiba
open Connectors (i64Max)

namespace Number

/-- `as_i64`. -/
def asI64 : Number → Option ℤ
  | .posInt n => if n ≤ i64Max then some n else none
  | .negInt n => some n
  | .float _ => none

/-- `as_u64`. -/
def asU64 : Number → Option ℕ
  | .posInt n => some n
  | _ => none

/-- `as_f64().is_some()`: integers are converted, however large. -/
def hasF64 : Number → Bool
  | .posInt _ | .negInt _ | .float _ => true

end Number

namespace Processors
open Server.SqlBuilder (isWhitespace trim isNull)

/-- `validate_parameter` of the processor with the given name; `range` is what it calls its integers. -/
def validateParameter (processor range : String) (value : Json) : Except FlowError Unit :=
  match value with
  | .null => .error (.configuration (processor ++ " does not accept untyped null parameters; use IS NULL"))
  | .number number =>
    if number.asI64.isNone && !number.hasF64 then
      .error (.configuration (processor ++ " numeric parameter is outside the supported range: " ++ number.render))
    else if number.asU64.any fun value => i64Max < value then
      .error (.configuration (processor ++ " integer parameter exceeds " ++ range ++ ": " ++ number.render))
    else .ok ()
  | _ => .ok ()

/-- An integer that no signed 64-bit column holds. -/
def exceedsBigint : Json → Bool
  | .number (.posInt n) => i64Max < n
  | _ => false

/-- A value that `bind_json` has a type for. -/
def Bindable (value : Json) : Prop := isNull value = false ∧ exceedsBigint value = false

theorem validateParameter_ok_iff {processor range : String} {value : Json} :
    validateParameter processor range value = .ok () ↔ Bindable value := by
  cases value with
  | null => exact iff_of_false nofun fun h => absurd h.1 (by decide)
  | number number =>
    cases number with
    | posInt n =>
      have hunfold : validateParameter processor range (.number (.posInt n)) =
          if i64Max < n then
            .error (.configuration (processor ++ " integer parameter exceeds " ++ range ++ ": " ++ Number.render (.posInt n)))
          else .ok () := by
        simp [validateParameter, Number.hasF64, Number.asU64]
      rw [hunfold, Bindable]
      by_cases hn : i64Max < n
      · rw [if_pos hn]
        exact iff_of_false nofun fun h => of_decide_eq_false h.2 hn
      · rw [if_neg hn]
        exact ⟨fun _ => ⟨rfl, decide_eq_false hn⟩, fun _ => rfl⟩
    | negInt n => exact ⟨fun _ => ⟨rfl, rfl⟩, fun _ => rfl⟩
    | float text => exact ⟨fun _ => ⟨rfl, rfl⟩, fun _ => rfl⟩
  | _ => exact ⟨fun _ => ⟨rfl, rfl⟩, fun _ => rfl⟩

/-- The loop over the parameters. -/
def validateParameters (validate : Json → Except FlowError Unit) : List Json → Except FlowError Unit
  | [] => .ok ()
  | parameter :: parameters => do
    validate parameter
    validateParameters validate parameters

/-- Parameters that have been validated. -/
abbrev Parameters := { parameters : List Json // ∀ v ∈ parameters, Bindable v }

theorem validateParameters_ok_iff {processor range : String} {parameters : List Json} :
    validateParameters (validateParameter processor range) parameters = .ok () ↔ ∀ v ∈ parameters, Bindable v := by
  induction parameters with
  | nil => exact iff_of_true rfl fun v hv => absurd hv List.not_mem_nil
  | cons v parameters ih =>
    rw [validateParameters, List.forall_mem_cons, ← ih, ← @validateParameter_ok_iff processor range v]
    cases validateParameter processor range v with
    | error e => exact iff_of_false nofun fun h => nomatch h.1
    | ok u => exact ⟨fun h => ⟨rfl, h⟩, And.right⟩

def validated (processor range : String) (parameters : List Json) : Except FlowError Parameters :=
  match h : validateParameters (validateParameter processor range) parameters with
  | .error e => .error e
  | .ok () => .ok ⟨parameters, validateParameters_ok_iff.mp h⟩

theorem validated_map_isOk_iff {α : Type} {processor range : String} {parameters : List Json} {f : Parameters → α} :
    ((validated processor range parameters).map f).isOk = true ↔ ∀ v ∈ parameters, Bindable v := by
  rw [← @validateParameters_ok_iff processor range, validated]
  split
  next e h =>
    rw [h]
    exact iff_of_false nofun nofun
  next h => exact iff_of_true rfl h

/-! ### PostgreSQL -/

structure QueryPostgres where
  connection : String
  query : String
  parameters : Parameters
  batchSize : ℕ+

/-- The options, after the defaults of the parser. -/
structure QueryPostgresConfig where
  connection : String
  query : String
  parameters : List Json := []
  batchSize : ℕ := 1000

/-- `max(1)`. -/
def atLeastOne (n : ℕ) : ℕ+ := ⟨max n 1, lt_max_of_lt_right Nat.one_pos⟩

namespace QueryPostgres

def validateParameters : List Json → Except FlowError Parameters := validated "query_postgres" "PostgreSQL BIGINT"

def fromConfig (config : QueryPostgresConfig) : Except FlowError QueryPostgres :=
  if (trim config.query.toList).isEmpty then
    .error (.configuration "query_postgres requires a non-empty query")
  else
    (validateParameters config.parameters).map fun parameters =>
      { connection := config.connection
        query := config.query
        parameters := parameters
        batchSize := atLeastOne config.batchSize }

theorem fromConfig_isOk_iff {config : QueryPostgresConfig} (hquery : (trim config.query.toList).isEmpty = false) :
    (fromConfig config).isOk = true ↔ ∀ v ∈ config.parameters, Bindable v := by
  rw [fromConfig, hquery]
  exact validated_map_isOk_iff

end QueryPostgres

/-! ### MySQL -/

structure QueryMysql where
  connection : String
  query : String
  parameters : Parameters
  batchSize : ℕ+
  /-- milliseconds -/
  callTimeout : Option ℕ+

structure QueryMysqlConfig where
  connection : String
  query : String
  parameters : List Json := []
  batchSize : ℕ := 1000
  callTimeoutMs : ℕ := 300000

namespace QueryMysql

def validateParameters : List Json → Except FlowError Parameters := validated "query_mysql" "signed BIGINT"

def fromConfig (config : QueryMysqlConfig) : Except FlowError QueryMysql :=
  if (trim config.query.toList).isEmpty then
    .error (.configuration "query_mysql requires a non-empty query")
  else
    (validateParameters config.parameters).map fun parameters =>
      { connection := config.connection
        query := config.query
        parameters := parameters
        batchSize := atLeastOne config.batchSize
        callTimeout := if h : 0 < config.callTimeoutMs then some ⟨config.callTimeoutMs, h⟩ else none }

theorem fromConfig_isOk_iff {config : QueryMysqlConfig} (hquery : (trim config.query.toList).isEmpty = false) :
    (fromConfig config).isOk = true ↔ ∀ v ∈ config.parameters, Bindable v := by
  rw [fromConfig, hquery]
  exact validated_map_isOk_iff

end QueryMysql

/-! ### SQL Server -/

structure QuerySqlServer where
  connection : String
  query : String
  parameters : Parameters
  batchSize : ℕ+

structure QuerySqlServerConfig where
  connection : String
  query : String
  parameters : List Json := []
  batchSize : ℕ := 1000

/-- The first word of a text, if any: `split_whitespace().next().unwrap_or_default()`. -/
def firstWord (s : List Char) : List Char := (s.dropWhile isWhitespace).takeWhile fun c => !isWhitespace c

namespace QuerySqlServer

def validateParameters : List Json → Except FlowError Parameters := validated "query_sqlserver" "signed BIGINT"

def fromConfig (config : QuerySqlServerConfig) : Except FlowError QuerySqlServer :=
  let query := trim config.query.toList
  let keyword := String.ofList ((firstWord query).map Char.toUpper)
  if ["SELECT", "WITH"].contains keyword then
    (validateParameters config.parameters).map fun parameters =>
      { connection := config.connection
        query := String.ofList query
        parameters := parameters
        batchSize := atLeastOne config.batchSize }
  else .error (.configuration "query_sqlserver accepts only SELECT or WITH queries")

theorem fromConfig_isOk_iff {config : QuerySqlServerConfig}
    (hkeyword : (firstWord (trim config.query.toList)).map Char.toUpper = ['S', 'E', 'L', 'E', 'C', 'T']) :
    (fromConfig config).isOk = true ↔ ∀ v ∈ config.parameters, Bindable v := by
  rw [fromConfig, hkeyword]
  exact validated_map_isOk_iff

end QuerySqlServer

end Processors

end Jaiba
