import Jaiba.AiPrep.Support

/-!
# Manifest of a dataset (`ai_prep/export_manifest.rs`)

With `collect_splits` the three pieces of a group are kept until the last one
arrives; then the group leaves the collector, and its files and the manifest are
written one after the other. Any of these operations may fail.
-/

namespace Jaiba.AiPrep
open Jaiba.Lib

inductive Split where
  | train
  | validation
  | test
  deriving DecidableEq

def Split.name : Split → String
  | .train => "train"
  | .validation => "validation"
  | .test => "test"

def Split.ofName : String → Option Split
  | "train" => some .train
  | "validation" => some .validation
  | "test" => some .test
  | _ => none

/-- The paths are those of the configuration, without blank ones. -/
structure AiExportManifest where
  path : String
  datasetName : String
  trainPath : Option String
  validationPath : Option String
  testPath : Option String
  collectSplits : Bool
  collects : collectSplits = true → trainPath ≠ none ∧ validationPath ≠ none ∧ testPath ≠ none

structure Manifest where
  dataset : String
  rowCount : ℕ
  columns : List String
  dtypes : OrderedDict String String
  split : Option String
  splitCounts : Option (Split → ℕ)
  splits : List (String × String)
  checksum : String

/-- What a file holds: the CSV of some records, or a manifest. -/
inductive Content where
  | csv (records : List Json)
  | manifest (m : Manifest)

abbrev Files := String → Option Content

/-- The pieces of a group. -/
abbrev Splits := Split → Option (List Json)

structure Collector where
  pending : Entries Splits
  files : Files

/-- The operations of an export. -/
inductive Operation where
  | encode (s : Split)
  | createDir (s : Split)
  | write (s : Split)
  | createManifestDir
  | writeManifest
  | emit
  deriving DecidableEq

/-- The operations that fail, and what a failed write leaves in its file. -/
structure Faults where
  error : Operation → Option FlowError
  left : Operation → Option Content

/-- `dtype_name`. -/
def dtypeName : Json → String
  | .null => "null"
  | .bool _ => "bool"
  | .number (.float _) => "float"
  | .number _ => "int"
  | .string _ => "string"
  | .array _ => "array"
  | .object _ => "object"

/-- The type of the first value seen of each column. -/
def dtypesOf (records : List Json) : OrderedDict String String :=
  records.foldl (fun dtypes record =>
    match record with
    | .object fields => fields.foldl (fun dtypes field =>
        if (dtypes.get? field.1).isSome then dtypes else dtypes.insert field.1 (dtypeName field.2)) dtypes
    | _ => dtypes) .empty

/-- A piece of a group, as its packet brings it. -/
structure Piece where
  group : String
  split : Split
  records : List Json

namespace AiExportManifest

variable (p : AiExportManifest) (codec : Codec) (processorId : String) (faults : Faults)

def splitPath : Split → Option String
  | .train => p.trainPath
  | .validation => p.validationPath
  | .test => p.testPath

def manifestOf (records : List Json) (split : Option String) (splitCounts : Option (Split → ℕ)) : Manifest where
  dataset := p.datasetName
  rowCount := records.length
  columns := (dtypesOf records).keys
  dtypes := dtypesOf records
  split := split
  splitCounts := splitCounts
  splits := [Split.train, .validation, .test].filterMap fun s =>
    (p.splitPath s).map fun path => (s.name ++ "_path", path)
  checksum := codec.hexDigest (codec.recordsToVec records)

def writeManifest (records : List Json) (split : Option String) (splitCounts : Option (Split → ℕ))
    (files : Files) : Except FlowError Unit × Files :=
  match faults.error .createManifestDir with
  | some e => (.error e, files)
  | none =>
    match faults.error .writeManifest with
    | some e => (.error e, Function.update files p.path (faults.left .writeManifest))
    | none =>
      (.ok (), Function.update files p.path (some (.manifest (p.manifestOf codec records split splitCounts))))

/-- One file of the loop over the splits. -/
def writeSplit (pieces : Split → List Json) (s : Split) (files : Files) : Except FlowError Unit × Files :=
  match p.splitPath s with
  | none => (.error (.configuration ("collect_splits requires " ++ s.name ++ "_path")), files)
  | some path =>
    match faults.error (.encode s) with
    | some e => (.error e, files)
    | none =>
      match faults.error (.createDir s) with
      | some e => (.error e, files)
      | none =>
        match faults.error (.write s) with
        | some e => (.error e, Function.update files path (faults.left (.write s)))
        | none => (.ok (), Function.update files path (some (.csv (pieces s))))

def writeSplits (pieces : Split → List Json) : List Split → Files → Except FlowError Unit × Files
  | [], files => (.ok (), files)
  | s :: rest, files =>
    match p.writeSplit faults pieces s files with
    | (.error e, files) => (.error e, files)
    | (.ok _, files) => writeSplits pieces rest files

/-- `write_collected_splits`: the records that are emitted. -/
def writeCollectedSplits (pieces : Split → List Json) (files : Files) :
    Except FlowError (List Json) × Files :=
  match p.writeSplits faults pieces [.train, .validation, .test] files with
  | (.error e, files) => (.error e, files)
  | (.ok _, files) =>
    let combined := pieces .train ++ pieces .validation ++ pieces .test
    match p.writeManifest codec faults combined none (some fun s => (pieces s).length) files with
    | (.error e, files) => (.error e, files)
    | (.ok _, files) =>
      match faults.error .emit with
      | some e => (.error e, files)
      | none => (.ok combined, files)

/-- The checks on a packet. -/
def checkedRecords (packet : DataPacket) : Except FlowError (List Json) :=
  match packet.records with
  | .error message => .error (.processor processorId message)
  | .ok records => (requireObjects processorId 0 records).map fun _ => records

def pieceOf (packet : DataPacket) : Except FlowError Piece := do
  let records ← checkedRecords processorId packet
  match (packet.attributes.lookup "ai.split").bind Split.ofName with
  | none => .error (.processor processorId "collect_splits requires packet attribute ai.split")
  | some split => .ok ⟨(packet.attributes.lookup "ai.split_group").getD packet.id, split, records⟩

/-- The pieces of the group of a piece, with it. -/
def gathered (s : Collector) (piece : Piece) : Splits :=
  Function.update ((s.pending piece.group).getD fun _ => none) piece.split (some piece.records)

def complete (splits : Splits) : Bool :=
  (splits .train).isSome && (splits .validation).isSome && (splits .test).isSome

/-- The collector takes the piece; a group that is complete leaves it and is written. -/
def collect (piece : Piece) (s : Collector) : Except FlowError (Option (List Json)) × Collector :=
  let splits := gathered s piece
  if complete splits then
    match p.writeCollectedSplits codec faults (fun split => (splits split).getD []) s.files with
    | (.error e, files) => (.error e, ⟨Function.update s.pending piece.group none, files⟩)
    | (.ok emitted, files) => (.ok (some emitted), ⟨Function.update s.pending piece.group none, files⟩)
  else (.ok none, { s with pending := Function.update s.pending piece.group (some splits) })

def execute (packet : DataPacket) (s : Collector) : Except FlowError (Option (List Json)) × Collector :=
  if p.collectSplits then
    match pieceOf processorId packet with
    | .error e => (.error e, s)
    | .ok piece => p.collect codec faults piece s
  else
    match checkedRecords processorId packet with
    | .error e => (.error e, s)
    | .ok records =>
      match p.writeManifest codec faults records (packet.attributes.lookup "ai.split") none s.files with
      | (.error e, files) => (.error e, { s with files := files })
      | (.ok _, files) =>
        match faults.error .emit with
        | some e => (.error e, { s with files := files })
        | none => (.ok (some records), { s with files := files })

end AiExportManifest

end Jaiba.AiPrep
