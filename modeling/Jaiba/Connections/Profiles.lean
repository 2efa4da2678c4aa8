import Mathlib.Data.List.Sort
import Jaiba.Connections.Vault

/-!
# Connection profiles (`jaiba-connection-manager/src/lib.rs`)

Profiles in memory and in the file they are saved to, next to the secret store,
which is a `Vault`: that is what `EncryptedFileSecretStore` keeps. A failed write
of the file, which is replaced as a whole, or of the secret store changes nothing.
-/

namespace Jaiba.Connections
open Jaiba.Lib

inductive ConnectionManagerError where
  | notFound (id : String)
  | duplicateName (name : String)
  | secretUnavailable (reference : String)
  | persistence (message : String)
  deriving DecidableEq

def ConnectionManagerError.text : ConnectionManagerError → String
  | .notFound id => "connection profile '" ++ id ++ "' was not found"
  | .duplicateName name => "connection profile name '" ++ name ++ "' already exists"
  | .secretUnavailable reference => "secret '" ++ reference ++ "' is unavailable"
  | .persistence message => "persistence error: " ++ message

inductive ConnectionType where
  | oracle
  | postgres
  | sqlServer
  | mySql
  | mariaDb
  | mongoDb
  | clickHouse
  | kafka
  | opcUa
  | rest
  | custom (id : String)
  deriving DecidableEq

structure ConnectionEndpoint where
  host : String
  port : ℕ
  database : Option String
  ssl : Bool
  poolMin : ℕ
  poolMax : ℕ
  timeoutMs : ℕ
  options : OrderedDict String String
  deriving DecidableEq

structure ConnectionProfile where
  id : String
  name : String
  connectionType : ConnectionType
  endpoint : ConnectionEndpoint
  secretRef : String
  tags : List String
  deriving DecidableEq

/-- `str::eq_ignore_ascii_case`. -/
def eqIgnoreAsciiCase (a b : String) : Bool := a.toList.map Char.toLower = b.toList.map Char.toLower

abbrev Profiles := OrderedDict String ConnectionProfile

/-- The profiles in the order of their names: what `persist_profiles` hands to the repository. -/
def snapshot (profiles : Profiles) : List ConnectionProfile :=
  (profiles.entries.map Prod.snd).insertionSort fun left right => left.name ≤ right.name

/-- `file` is what the profile repository holds, if one is configured (`persistent`). -/
structure Manager where
  profiles : Profiles
  persistent : Bool
  file : Option (List ConnectionProfile)
  secrets : Vault

/-- What one call draws and how its writes go: the `i`-th uuid, the `i`-th saving of the
profiles and the `i`-th write of the secret store. -/
structure CallWorld where
  uuid : ℕ → String
  save : ℕ → Except String Unit
  secret : ℕ → Except String Unit

/-- What a call returns and the manager it leaves. -/
abbrev Outcome (α : Type) := Except ConnectionManagerError α × Manager

def freshSecretRef (uuid : String) : String := "secret://connection/" ++ uuid

namespace Manager

variable (m : Manager) (world : CallWorld)

def contains (id : String) : Bool := (m.profiles.get? id).isSome

/-- Another profile has the name. -/
def nameTaken (profile : ConnectionProfile) : Bool :=
  m.profiles.entries.any fun candidate =>
    eqIgnoreAsciiCase candidate.2.name profile.name && candidate.2.id ≠ profile.id

/-- The checks of `upsert`. -/
def rejects (profile : ConnectionProfile) (replacing : Bool) : Bool :=
  m.nameTaken profile || !replacing && m.contains profile.id

def persistProfiles (i : ℕ) (pending : Profiles) : Outcome Unit :=
  if m.persistent then
    match world.save i with
    | .error e => (.error (.persistence e), m)
    | .ok () => (.ok (), { m with file := some (snapshot pending) })
  else (.ok (), m)

/-- `SecretStore::store` and `SecretStore::remove`. -/
def writeSecret (i : ℕ) (call : Call) : Outcome Unit :=
  match world.secret i with
  | .error e => (.error (.persistence e), m)
  | .ok () => (.ok (), { m with secrets := m.secrets.call call })

/-- `SecretStore::resolve`. -/
def resolveSecret (reference : String) : Except ConnectionManagerError ConnectionSecret :=
  match m.secrets.map reference with
  | some secret => .ok secret
  | none => .error (.secretUnavailable reference)

def get (id : String) : Except ConnectionManagerError ConnectionProfile :=
  match m.profiles.get? id with
  | some profile => .ok profile
  | none => .error (.notFound id)

def remove (id : String) : Profiles := m.profiles.retain fun key _ => key ≠ id

/-- Save `pending`, then publish it. -/
def publish (i : ℕ) (pending : Profiles) : Outcome Unit :=
  match m.persistProfiles world i pending with
  | (.error e, m) => (.error e, m)
  | (.ok (), m) => (.ok (), { m with profiles := pending })

/-- `upsert`, whose saving is the `i`-th of the call. -/
def upsert (i : ℕ) (profile : ConnectionProfile) (replacing : Bool) : Outcome Unit :=
  if m.rejects profile replacing then (.error (.duplicateName profile.name), m)
  else m.publish world i (m.profiles.insert profile.id profile)

/-- `create`, with the `i`-th uuid of the call. -/
def create (i : ℕ) (name : String) (connectionType : ConnectionType) (endpoint : ConnectionEndpoint)
    (secretRef : String) : Outcome ConnectionProfile :=
  let profile : ConnectionProfile := ⟨world.uuid i, name, connectionType, endpoint, secretRef, []⟩
  match m.upsert world 0 profile false with
  | (.error e, m) => (.error e, m)
  | (.ok (), m) => (.ok profile, m)

def update (profile : ConnectionProfile) : Outcome Unit :=
  if m.contains profile.id then m.upsert world 0 profile true
  else (.error (.notFound profile.id), m)

def delete (id : String) : Outcome ConnectionProfile :=
  match m.get id with
  | .error e => (.error e, m)
  | .ok profile =>
    match m.publish world 0 (m.remove id) with
    | (.error e, m) => (.error e, m)
    | (.ok (), m) => (.ok profile, m)

/-- The first uuid names the copy of the secret, the second one is the id of the copy. -/
def duplicate (id name : String) : Outcome ConnectionProfile :=
  match m.get id with
  | .error e => (.error e, m)
  | .ok original =>
    match m.resolveSecret original.secretRef with
    | .error e => (.error e, m)
    | .ok secret =>
      let secretRef := freshSecretRef (world.uuid 0)
      match m.writeSecret world 0 (.store secretRef secret) with
      | (.error e, m) => (.error e, m)
      | (.ok (), m) =>
        match m.create world 1 name original.connectionType original.endpoint secretRef with
        | (.ok profile, m) => (.ok profile, m)
        | (.error error, m) =>
          match m.writeSecret world 1 (.remove secretRef) with
          | (.error rollback, m) =>
            (.error (.persistence ("no se pudo crear el perfil (" ++ error.text ++
              ") ni eliminar el secreto provisional (" ++ rollback.text ++ ")")), m)
          | (.ok (), m) => (.error error, m)

def updateWithSecret (profile : ConnectionProfile) (secret : ConnectionSecret) : Outcome Unit :=
  match m.resolveSecret profile.secretRef with
  | .error e => (.error e, m)
  | .ok previous =>
    match m.writeSecret world 0 (.store profile.secretRef secret) with
    | (.error e, m) => (.error e, m)
    | (.ok (), m) =>
      match m.update world profile with
      | (.ok (), m) => (.ok (), m)
      | (.error error, m) =>
        match m.writeSecret world 1 (.store profile.secretRef previous) with
        | (.error rollback, m) =>
          (.error (.persistence ("no se pudo actualizar el perfil (" ++ error.text ++
            ") ni restaurar su secreto (" ++ rollback.text ++ ")")), m)
        | (.ok (), m) => (.error error, m)

/-- Another profile has the same `secret_ref`. -/
def secretIsShared (profile : ConnectionProfile) (id : String) : Bool :=
  m.profiles.entries.any fun candidate =>
    candidate.2.id ≠ id && candidate.2.secretRef = profile.secretRef

/-- The end of `delete_with_secret`: the secret goes before the profile is gone from memory. -/
def removeWithSecret (id : String) (profile : ConnectionProfile) : Outcome ConnectionProfile :=
  match m.persistProfiles world 0 (m.remove id) with
  | (.error e, m) => (.error e, m)
  | (.ok (), saved) =>
    match saved.writeSecret world 0 (.remove profile.secretRef) with
    | (.ok (), saved) => (.ok profile, { saved with profiles := m.remove id })
    | (.error error, saved) =>
      match saved.persistProfiles world 1 m.profiles with
      | (.error rollback, saved) =>
        (.error (.persistence ("no se pudo eliminar el secreto (" ++ error.text ++
          ") ni revertir la baja (" ++ rollback.text ++ ")")), { saved with profiles := m.remove id })
      | (.ok (), saved) => (.error error, saved)

def deleteWithSecret (id : String) : Outcome ConnectionProfile :=
  match m.get id with
  | .error e => (.error e, m)
  | .ok profile =>
    if m.secretIsShared profile id then
      match m.publish world 0 (m.remove id) with
      | (.error e, m) => (.error e, m)
      | (.ok (), m) => (.ok profile, m)
    else
      match m.resolveSecret profile.secretRef with
      | .error e => (.error e, m)
      | .ok _ => m.removeWithSecret world id profile

/-- A profile to import without an id gets the `i`-th uuid of the call. -/
def fillId (i : ℕ) (profile : ConnectionProfile) : ConnectionProfile :=
  if profile.id = "" then { profile with id := world.uuid i } else profile

/-- The loop of `import`, at the `i`-th profile. -/
def importFrom : ℕ → List ConnectionProfile → List ConnectionProfile → Manager →
    Outcome (List ConnectionProfile)
  | _, imported, [], m => (.ok imported, m)
  | i, imported, profile :: rest, m =>
    let profile := fillId world i profile
    match m.upsert world i profile false with
    | (.error e, m) => (.error e, m)
    | (.ok (), m) => importFrom (i + 1) (imported ++ [profile]) rest m

def importProfiles (profiles : List ConnectionProfile) : Outcome (List ConnectionProfile) :=
  importFrom world 0 [] profiles m

/-- `load_persisted`, when the file can be read. -/
def loadPersisted : Manager :=
  match m.persistent, m.file with
  | true, some loaded =>
    { m with profiles := loaded.foldl (fun profiles profile => profiles.insert profile.id profile) m.profiles }
  | _, _ => m

end Manager

/-! ### The manager in use -/

inductive Operation where
  | create (name : String) (connectionType : ConnectionType) (endpoint : ConnectionEndpoint)
      (secretRef : String)
  | upsert (profile : ConnectionProfile) (replacing : Bool)
  | update (profile : ConnectionProfile)
  | delete (id : String)
  | duplicate (id name : String)
  | updateWithSecret (profile : ConnectionProfile) (secret : ConnectionSecret)
  | deleteWithSecret (id : String)
  | importProfiles (profiles : List ConnectionProfile)

def Outcome.map {α β : Type} (f : α → β) (outcome : Outcome α) : Outcome β :=
  (outcome.1.map f, outcome.2)

/-- One operation; it returns the profiles that the call returns. -/
def Manager.perform (m : Manager) (world : CallWorld) : Operation → Outcome (List ConnectionProfile)
  | .create name connectionType endpoint secretRef =>
    (m.create world 0 name connectionType endpoint secretRef).map fun profile => [profile]
  | .upsert profile replacing => (m.upsert world 0 profile replacing).map fun _ => []
  | .update profile => (m.update world profile).map fun _ => []
  | .delete id => (m.delete world id).map fun profile => [profile]
  | .duplicate id name => (m.duplicate world id name).map fun profile => [profile]
  | .updateWithSecret profile secret => (m.updateWithSecret world profile secret).map fun _ => []
  | .deleteWithSecret id => (m.deleteWithSecret world id).map fun profile => [profile]
  | .importProfiles profiles => m.importProfiles world profiles

/-- Between the operations, the process is restarted, loads what was saved, or calls the
secret store itself. -/
inductive Action where
  | operation (op : Operation) (world : CallWorld)
  | restart
  | loadPersisted
  | secret (call : Call)

def managers : Machine Manager Action where
  step m
    | .operation op world => some (m.perform world op).2
    | .restart => some { m with profiles := .empty }
    | .loadPersisted => some m.loadPersisted
    | .secret call => some { m with secrets := m.secrets.call call }

def Manager.start (persistent : Bool) (secrets : Vault) : Manager := ⟨.empty, persistent, none, secrets⟩

end Jaiba.Connections
