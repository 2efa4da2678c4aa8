import Jaiba.Error
import Jaiba.Packet
import Jaiba.Lib.Dict
import Jaiba.Server.SqlBuilder

/-!
# Records of the data preparation (`processors/ai_prep/support.rs`)

Checks and conversions that the processors share. `f64` and the text of its
numbers are parameters.
-/

namespace Jaiba.AiPrep
open Jaiba.Lib

def isObject : Json → Bool
  | .object _ => true
  | _ => false

/-- `require_objects`, from a position on. -/
def requireObjects (processorId : String) : ℕ → List Json → Except FlowError Unit
  | _, [] => .ok ()
  | index, record :: rest =>
    if isObject record then requireObjects processorId (index + 1) rest
    else .error (.processor processorId ("record " ++ toString index ++ " is not a JSON object"))

theorem requireObjects_ok {processorId : String} {index : ℕ} {records : List Json} :
    requireObjects processorId index records = .ok () ↔ ∀ record ∈ records, isObject record = true := by
  induction records generalizing index with
  | nil =>
    refine ⟨fun _ record h => ?_, fun _ => rfl⟩
    cases h
  | cons record rest ih =>
    rw [requireObjects, List.forall_mem_cons, ← @ih (index + 1)]
    by_cases h : isObject record = true
    · rw [if_pos h]
      exact ⟨fun hrest => ⟨h, hrest⟩, fun hall => hall.2⟩
    · rw [if_neg h]
      refine ⟨fun hrest => ?_, fun hall => absurd hall.1 h⟩
      cases hrest

/-- Absent, `null` and blank text are missing. -/
def isMissing : Option Json → Bool
  | none => true
  | some .null => true
  | some (.string text) => (Server.SqlBuilder.trim text.toList).isEmpty
  | _ => false

/-- `Map::insert`, on a record that is an object. -/
def insertField (key : String) (value : Json) : Json → Json
  | .object fields => .object (OrderedDict.insertEntry key value fields)
  | other => other

/-- `field_key`. -/
def fieldKey (fields : List String) (record : Json) : String :=
  "\u001f".intercalate (fields.map fun field =>
    match record.get field with
    | some value => value.render
    | none => "null")

/-- `f64`, as far as the processors compute with it. -/
structure Floats (F : Type) where
  zero : F
  one : F
  add : F → F → F
  sub : F → F → F
  mul : F → F → F
  div : F → F → F
  min : F → F → F
  max : F → F → F
  sqrt : F → F
  isZero : F → Bool
  ofCount : ℕ → F
  sort : List F → List F
  ofNumber : Number → Option F
  parse : List Char → Option F
  toNumber : F → Option Number

namespace Floats

variable {F : Type} (f : Floats F)

/-- `as_f64`. -/
def asF64 : Json → Option F
  | .number n => f.ofNumber n
  | .string text => f.parse (Server.SqlBuilder.trim text.toList)
  | .bool flag => some (if flag then f.one else f.zero)
  | _ => none

/-- `json_number`. -/
def jsonNumber (value : F) : Json :=
  match f.toNumber value with
  | some n => .number n
  | none => .null

/-- The numbers of a field, in the order of the records. -/
def numbers (records : List Json) (field : String) : List F :=
  records.filterMap fun record => (record.get field).bind f.asF64

/-- `median_of`, of a nonempty list. -/
def medianOf (values : List F) : F :=
  let sorted := f.sort values
  let mid := values.length / 2
  if values.length % 2 = 0 then
    f.div (f.add (sorted.getD (mid - 1) f.zero) (sorted.getD mid f.zero)) (f.ofCount 2)
  else sorted.getD mid f.zero

end Floats

/-- A map by names, as what it holds under each. -/
abbrev Entries (α : Type) := String → Option α

/-! ### Attempts -/

/-- What the stateful processors do with a packet: nothing is changed before the records are
known to be objects; then the state is, and `output.success` may fail. -/
def runWork {σ : Type} (processorId : String) (work : List Json → σ → List Json × σ) (packet : DataPacket)
    (failure : Option FlowError) (s : σ) : Except FlowError (List Json) × σ :=
  match packet.records with
  | .error message => (.error (.processor processorId message), s)
  | .ok records =>
    match requireObjects processorId 0 records with
    | .error e => (.error e, s)
    | .ok () =>
      match failure with
      | some e => (.error e, (work records s).2)
      | none => (.ok (work records s).1, (work records s).2)

end Jaiba.AiPrep
