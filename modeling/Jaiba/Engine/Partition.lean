import Jaiba.Error
import Jaiba.Packet

/-!
# Partition keys (`engine/executor/partition.rs`)

The key of a packet for a processor with `ordering: partitioned`.
-/

namespace Jaiba.Engine

def canonicalPartitionValue : Json → String
  | .string value => value
  | other => other.render

/-- `strip_prefix("attribute.").unwrap_or(selector)`. -/
def attributeOf (selector : String) : String :=
  if "attribute.".isPrefixOf selector then
    String.ofList (selector.toList.drop "attribute.".length)
  else selector

/-- The records after the first: each must carry the first value. -/
def samePartition (selector processorId first : String) : List Json → Except FlowError String
  | [] => .ok first
  | record :: records =>
    match record.get selector with
    | none =>
      .error (.processor processorId ("partition field '" ++ selector ++ "' is missing"))
    | some value =>
      if canonicalPartitionValue value ≠ first then
        .error (.processor processorId ("packet contains multiple values for partition field '" ++
          selector ++ "'; split it before this processor"))
      else samePartition selector processorId first records

/-- An attribute of the packet, else the one value that all its records share. -/
def packetPartitionKey (packet : DataPacket) (selector processorId : String) :
    Except FlowError String :=
  match packet.attributes.lookup (attributeOf selector) with
  | some value => .ok value
  | none =>
    match packet.records with
    | .error message =>
      .error (.processor processorId ("cannot resolve partition '" ++ selector ++ "': " ++ message))
    | .ok [] =>
      .error (.processor processorId ("cannot partition an empty packet by '" ++ selector ++ "'"))
    | .ok (record :: records) =>
      match record.get selector with
      | none =>
        .error (.processor processorId ("partition field '" ++ selector ++ "' is missing"))
      | some value => samePartition selector processorId (canonicalPartitionValue value) records

end Jaiba.Engine
