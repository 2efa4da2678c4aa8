import Jaiba.Json

/-!
# Packets (`engine/packet.rs`, `engine/schema.rs`)

A `DataPacket` and the parts of it the engine reads: its records, its attempt
counter and its estimated size. What comes from other crates (SHA-256, JSON and
UUID text) and from the compiler (`size_of`) is a `Codec`, a parameter.
-/

namespace Jaiba

abbrev Bytes := List UInt8

inductive DataType where
  | boolean | int64 | float64
  | decimal (precision scale : ℕ)
  | string | date | timestamp | timestampWithTimezone | uuid | binary | json
  deriving Repr, DecidableEq

structure FieldSchema where
  name : String
  dataType : DataType
  nullable : Bool
  deriving Repr, DecidableEq

structure RecordSchema where
  name : Option String
  fields : List FieldSchema
  deriving Repr, DecidableEq

/-- Content transported between processors. -/
inductive PacketContent where
  | records (records : List Json)
  | encoded (mediaType : String) (bytes : Bytes)

structure DataPacket where
  id : String
  attributes : List (String × String)
  content : PacketContent
  schema : Option RecordSchema
  attempt : ℕ

namespace DataPacket

/-- `DataPacket::empty` with the fresh identifier it draws. -/
def empty (id : String) : DataPacket := ⟨id, [], .records [], none, 0⟩

def records (p : DataPacket) : Except String (List Json) :=
  match p.content with
  | .records records => .ok records
  | .encoded mediaType _ => .error ("expected records, found encoded " ++ mediaType)

end DataPacket

/-- What the code takes from other crates and from the compiler. -/
structure Codec where
  /-- lowercase hexadecimal SHA-256 (`sha2`) -/
  hexDigest : Bytes → String
  recordsToVec : List Json → Bytes
  recordsFromSlice : Bytes → Option (List Json)
  attributesToString : List (String × String) → String
  attributesFromStr : String → Option (List (String × String))
  schemaToString : RecordSchema → String
  schemaFromStr : String → Option RecordSchema
  parseUuid : String → Option String
  /-- `std::mem::size_of::<DataPacket>()` -/
  sizeOfPacket : ℕ

/-- `DataPacket::estimated_size`; saturation at `usize::MAX` is left out. -/
def DataPacket.estimatedSize (codec : Codec) (p : DataPacket) : ℕ :=
  let attributes := (p.attributes.map fun kv => kv.1.utf8ByteSize + kv.2.utf8ByteSize).sum
  let content := match p.content with
    | .records records => (codec.recordsToVec records).length
    | .encoded mediaType bytes => mediaType.utf8ByteSize + bytes.length
  let schema := match p.schema with
    | some schema => (codec.schemaToString schema).utf8ByteSize
    | none => 0
  attributes + content + schema + codec.sizeOfPacket

end Jaiba
