import Jaiba.Error
import Jaiba.Json

/-!
# BSON documents (`mongodb::bson`)

The values of the driver's documents and the bytes that they take. A document
keeps its fields in their order; numbers that nothing computes with are carried
by their text.
-/

namespace Jaiba.Mongo

inductive Bson where
  | double (text : String)
  | string (s : String)
  | array (items : List Bson)
  | document (fields : List (String × Bson))
  | boolean (b : Bool)
  | null
  | regularExpression (pattern options : String)
  | javaScriptCode (code : String)
  | javaScriptCodeWithScope (code : String) (scope : List (String × Bson))
  | int32 (n : ℤ)
  | int64 (n : ℤ)
  | timestamp (time increment : ℕ)
  | binary (subtype : ℕ) (bytes : List UInt8)
  | objectId (hex : String)
  | dateTime (millis : ℤ)
  | symbol (s : String)
  | decimal128 (text : String)
  | undefined
  | maxKey
  | minKey
  | dbPointer (namespaceName id : String)

abbrev Document := List (String × Bson)

namespace Document

def get (d : Document) (key : String) : Option Bson := d.lookup key

/-- `Document::insert` replaces the value of a key that is there. -/
def insert (d : Document) (key : String) (value : Bson) : Document :=
  if (d.lookup key).isSome then d.map fun field => if field.1 = key then (key, value) else field
  else d ++ [(key, value)]

end Document

def Bson.asDocument : Bson → Option Document
  | .document fields => some fields
  | _ => none

/-! ### Sizes -/

/-- A `cstring`, with the byte that ends it. -/
def cstringSize (s : String) : ℕ := s.utf8ByteSize + 1

/-- The name of an element of an array is its index in decimal. -/
def indexSize (index : ℕ) : ℕ := (toString index).length + 1

mutual

/-- The bytes of a value, without its type and its name. -/
def Bson.size : Bson → ℕ
  | .double _ => 8
  | .string s => 4 + cstringSize s
  | .array items => 5 + itemsSize 0 items
  | .document fields => 5 + fieldsSize fields
  | .boolean _ => 1
  | .null => 0
  | .regularExpression pattern options => cstringSize pattern + cstringSize options
  | .javaScriptCode code => 4 + cstringSize code
  | .javaScriptCodeWithScope code scope => 4 + (4 + cstringSize code) + (5 + fieldsSize scope)
  | .int32 _ => 4
  | .int64 _ => 8
  | .timestamp _ _ => 8
  | .binary subtype bytes => 5 + (if subtype = 2 then 4 else 0) + bytes.length
  | .objectId _ => 12
  | .dateTime _ => 8
  | .symbol s => 4 + cstringSize s
  | .decimal128 _ => 16
  | .undefined => 0
  | .maxKey => 0
  | .minKey => 0
  | .dbPointer namespaceName _ => 4 + cstringSize namespaceName + 12

def fieldsSize : List (String × Bson) → ℕ
  | [] => 0
  | (name, value) :: rest => 1 + cstringSize name + value.size + fieldsSize rest

def itemsSize (index : ℕ) : List Bson → ℕ
  | [] => 0
  | value :: rest => 1 + indexSize index + value.size + itemsSize (index + 1) rest

end

/-- The bytes of a document: its length, its fields and the byte that ends it. -/
def Document.size (d : Document) : ℕ := 5 + fieldsSize d

theorem indexSize_pos (index : ℕ) : 2 ≤ indexSize index := by
  have hpos : 0 < (toString index).length := Nat.length_repr_pos
  rw [indexSize]
  omega

theorem indexSize_le {index k : ℕ} (hk : 0 < k) (h : index < 10 ^ k) : indexSize index ≤ k + 1 := by
  have hlength : (toString index).length ≤ k := (Nat.length_repr_le_iff hk).mpr h
  rw [indexSize]
  omega

/-! ### The crate -/

/-- What is taken from the `bson` crate: JSON and Extended JSON as BSON, and the complaint
about a document that has no raw form. -/
structure Crate where
  fromJson : Json → Except String Bson
  unencodable : Document → Option String

/-- `json_document`. -/
def jsonDocument (crate : Crate) (value : Json) (label : String) : Except FlowError Document :=
  match crate.fromJson value with
  | .error error => .error (.configuration (label ++ ": " ++ error))
  | .ok (.document document) => .ok document
  | .ok _ => .error (.configuration (label ++ " must be a JSON object"))

/-- `record_document`: a bad record is not retried. -/
def recordDocument (crate : Crate) (value : Json) (label : String) : Except FlowError Document :=
  (jsonDocument crate value label).mapError fun
    | .configuration message => .databaseRejected message
    | other => other

/-! ### Paths -/

/-- The value behind the parts of a path, through documents only. -/
def Document.atParts (d : Document) : List String → Option Bson
  | [] => none
  | [key] => d.get key
  | key :: part :: rest =>
    match (d.get key).bind Bson.asDocument with
    | some inner => Document.atParts inner (part :: rest)
    | none => none

/-- `path.split('.')`. -/
def pathParts (path : String) : List String := (path.toList.splitOn '.').map String.ofList

/-- `value_at_path`. -/
def valueAtPath (d : Document) (path : String) : Option Bson := d.atParts (pathParts path)

end Jaiba.Mongo
