import Mathlib.Data.List.Sort
import Jaiba.Error
import Jaiba.Json
import Jaiba.Lib.Dict

/-!
# Flow records (`jaiba-server/src/flow_registry.rs`)

The versions of a flow and what each operation of the registry writes to them.
-/

namespace Jaiba.Server
open Jaiba.Lib

inductive FlowVersionState where
  | draft | validated | deployed | archived
  deriving Repr, DecidableEq

/-- A version of a flow; its source is not written again. -/
structure FlowVersion where
  version : ℕ
  state : FlowVersionState
  source : String
  checksum : String
  createdAt : ℕ
  validatedAt : Option ℕ
  deployedAt : Option ℕ
  archivedAt : Option ℕ
  note : Option String
  deriving Repr, DecidableEq

structure FlowRecord where
  id : String
  versions : List FlowVersion
  activeVersion : Option ℕ
  createdAt : ℕ
  updatedAt : ℕ
  deriving Repr, DecidableEq

/-- Numbers of versions are `u32`. -/
def versionLimit : ℕ := 2 ^ 32

/-- `version_mut`: the first version with the number is written. -/
def updateFirst (version : ℕ) (f : FlowVersion → FlowVersion) : List FlowVersion → List FlowVersion
  | [] => []
  | v :: versions => if v.version = version then f v :: versions else v :: updateFirst version f versions

namespace FlowVersion

def markValidated (now : ℕ) (v : FlowVersion) : FlowVersion :=
  { v with state := .validated, validatedAt := some now }

def markDeployed (now : ℕ) (v : FlowVersion) : FlowVersion :=
  { v with state := .deployed, deployedAt := some now }

def markArchived (now : ℕ) (v : FlowVersion) : FlowVersion :=
  { v with state := .archived, archivedAt := some now }

end FlowVersion

namespace FlowRecord

/-- The record that `or_insert_with` makes. -/
def fresh (id : String) (now : ℕ) : FlowRecord := ⟨id, [], none, now, now⟩

/-- One more than the largest number; a release build wraps. -/
def nextVersion (r : FlowRecord) : ℕ :=
  ((r.versions.map FlowVersion.version).foldl max 0 + 1) % versionLimit

def version? (r : FlowRecord) (version : ℕ) : Option FlowVersion :=
  r.versions.find? fun v => v.version = version

def update (r : FlowRecord) (version : ℕ) (f : FlowVersion → FlowVersion) : FlowRecord :=
  { r with versions := updateFirst version f r.versions }

/-- What `create_draft` writes. -/
def draft (r : FlowRecord) (source checksum : String) (note : Option String) (now : ℕ) : FlowRecord :=
  { r with
    versions := r.versions ++
      [⟨r.nextVersion, .draft, source, checksum, now, none, none, none, note⟩]
    updatedAt := now }

/-- What `validate_version` writes. -/
def validated (r : FlowRecord) (version now : ℕ) : FlowRecord :=
  { r.update version (.markValidated now) with updatedAt := now }

/-- What `archive_version` writes. -/
def archived (r : FlowRecord) (version now : ℕ) : FlowRecord :=
  { r.update version (.markArchived now) with
    activeVersion := if r.activeVersion = some version then none else r.activeVersion
    updatedAt := now }

/-- The version that was active is archived, unless it is the new one. -/
def retire (r : FlowRecord) (version now : ℕ) : FlowRecord :=
  match r.activeVersion with
  | none => r
  | some previous => if previous ≠ version then r.update previous (.markArchived now) else r

/-- What `activate` writes. -/
def activated (r : FlowRecord) (version now : ℕ) : FlowRecord :=
  { (r.retire version now).update version (.markDeployed now) with
    activeVersion := some version
    updatedAt := now }

/-- What `seed_running` writes. -/
def seeded (r : FlowRecord) (source checksum : String) (now : ℕ) : FlowRecord :=
  let pushed : FlowRecord :=
    { r with
      versions := r.versions ++ [⟨r.nextVersion, .deployed, source, checksum, now, some now, some now,
        none, some "servido por CLI"⟩] }
  { (match r.activeVersion with
      | none => pushed
      | some previous => pushed.update previous (.markArchived now)) with
    activeVersion := some r.nextVersion
    updatedAt := now }

/-- The version `rollback` deploys: the largest number among those deployed
before. -/
def rollbackTarget (r : FlowRecord) : Option ℕ :=
  ((r.versions.filter fun v => v.deployedAt.isSome && some v.version ≠ r.activeVersion &&
    (v.state = .archived || v.state = .deployed)).map FlowVersion.version).max?

end FlowRecord

/-! ### Text of the records -/

def FlowVersionState.text : FlowVersionState → String
  | .draft => "DRAFT"
  | .validated => "VALIDATED"
  | .deployed => "DEPLOYED"
  | .archived => "ARCHIVED"

def optional {α : Type} (f : α → Json) : Option α → Json
  | none => .null
  | some a => f a

def natural (n : ℕ) : Json := .number (.posInt n)

def FlowVersion.toJson (v : FlowVersion) : Json :=
  .object [("version", natural v.version), ("state", .string v.state.text),
    ("source", .string v.source), ("checksum", .string v.checksum),
    ("created_at", natural v.createdAt), ("validated_at", optional natural v.validatedAt),
    ("deployed_at", optional natural v.deployedAt), ("archived_at", optional natural v.archivedAt),
    ("note", optional .string v.note)]

def FlowRecord.toJson (r : FlowRecord) : Json :=
  .object [("id", .string r.id), ("versions", .array (r.versions.map FlowVersion.toJson)),
    ("active_version", optional natural r.activeVersion), ("created_at", natural r.createdAt),
    ("updated_at", natural r.updatedAt)]

/-- Errors of the registry. -/
inductive RegistryError where
  | notFound (message : String)
  | invalidState (message : String)
  | limitExceeded (message : String)
  | validation (error : FlowError)
  | internal (error : FlowError)
  deriving Repr, DecidableEq

abbrev Records := Dict String FlowRecord

/-- The records in the order in which they are written to the file. -/
def sorted (records : Records) : List FlowRecord :=
  (records.rows.map Prod.snd).insertionSort fun a b => a.id ≤ b.id

end Jaiba.Server
