import Jaiba.Lib.Bytes
import Jaiba.Lib.Dict
import Jaiba.Lib.Except
import Jaiba.Lib.Machine

/-!
# The encrypted secret store (`jaiba-connection-manager/src/secure.rs`)

Secrets in memory and in one file that is replaced as a whole. Argon2, AES-GCM,
SHA-256, base64 and the JSON of the file are parameters; what the operating
system answers during a call is a `World`.
-/

namespace Jaiba.Connections
open Jaiba.Lib

def secretFileVersion : ℕ := 2
def legacySecretFileVersion : ℕ := 1
def nonceLen : ℕ := 12
def saltLen : ℕ := 16
def kdfName : String := "argon2id"
def verifierPlaintext : Bytes := utf8 "jaiba-secret-store-v2"

inductive SecureStoreError where
  | io (source : String)
  | crypto (what : String)
  | kdf (error : String)
  | wrongKey
  | corrupt (error : String)
  | unsupportedVersion (version : ℕ)
  | random (error : String)
  deriving DecidableEq

structure Argon2ParamsFile where
  mKib : ℕ
  t : ℕ
  p : ℕ
  deriving DecidableEq

def Argon2ParamsFile.default : Argon2ParamsFile := ⟨19456, 2, 1⟩

structure ConnectionSecret where
  username : String
  password : String
  options : List (String × String)

structure SecretPayload where
  username : String
  password : String
  options : List (String × String)
  deriving DecidableEq

def SecretPayload.from (secret : ConnectionSecret) : SecretPayload :=
  ⟨secret.username, secret.password, secret.options⟩

def SecretPayload.into (payload : SecretPayload) : ConnectionSecret :=
  ⟨payload.username, payload.password, payload.options⟩

structure SecretFile where
  version : ℕ
  keyId : Option String
  kdf : Option String
  salt : Option String
  argon2 : Option Argon2ParamsFile
  verifier : Option String
  entries : OrderedDict String String
  deriving DecidableEq

abbrev Key := Bytes

/-- What the store takes from other crates. -/
structure Crypto where
  deriveKeyArgon2 : String → Bytes → Argon2ParamsFile → Except String Key
  deriveKeySha256 : String → Key
  fingerprint : Key → String
  /-- AES-256-GCM: key, nonce and plaintext -/
  encrypt : Key → Bytes → Bytes → Option Bytes
  decrypt : Key → Bytes → Bytes → Option Bytes
  encode : Bytes → String
  decode : String → Except String Bytes
  files : Serde SecretFile
  payloads : Serde SecretPayload

/-- What the operating system answers during one call: random bytes of the length
asked for, and the reading and replacing of the file. -/
structure World where
  salt : Except String Bytes
  nonce : ℕ → Except String Bytes
  read : Except String Unit
  write : Except String Unit
  length_salt : ∀ bytes, salt = .ok bytes → bytes.length = saltLen
  length_nonce : ∀ i bytes, nonce i = .ok bytes → bytes.length = nonceLen

/-- The iteration order of the map of secrets only decides which nonce an entry gets. -/
structure Inner where
  key : Key
  salt : Bytes
  params : Argon2ParamsFile
  keyId : String
  secrets : OrderedDict String ConnectionSecret

structure EncryptedFileSecretStore where
  fingerprint : String
  inner : Inner

section
variable (crypto : Crypto) (world : World)

/-- `encrypt`, with the `i`-th nonce of the call. -/
def encrypt (i : ℕ) (key : Key) (plaintext : Bytes) : Except SecureStoreError String := do
  let nonce ← (world.nonce i).mapError SecureStoreError.random
  match crypto.encrypt key nonce plaintext with
  | some ciphertext => .ok (crypto.encode (nonce ++ ciphertext))
  | none => .error (.crypto "encrypt")

def decrypt (key : Key) (blob : String) : Except SecureStoreError Bytes := do
  let blob ← (crypto.decode blob).mapError SecureStoreError.corrupt
  if blob.length ≤ nonceLen then
    .error (.corrupt "bloque cifrado demasiado corto")
  else
    match crypto.decrypt key (blob.take nonceLen) (blob.drop nonceLen) with
    | some plaintext => .ok plaintext
    | none => .error (.crypto "decrypt")

def verifyCanary (key : Key) (verifier : String) : Except SecureStoreError Unit := do
  let plaintext ← (decrypt crypto key verifier).mapError fun _ => SecureStoreError.wrongKey
  if plaintext ≠ verifierPlaintext then .error .wrongKey else .ok ()

/-- One entry of the file, in the loop of `write_file_at`. -/
def sealEntry (key : Key) (i : ℕ) (secret : ConnectionSecret) : Except SecureStoreError String := do
  let plaintext ← (crypto.payloads.toVec (.from secret)).mapError SecureStoreError.corrupt
  encrypt crypto world i key plaintext

/-- One secret of the file, in the loops of `open_v2` and `open_and_migrate_v1`. -/
def openEntry (key : Key) (blob : String) : Except SecureStoreError ConnectionSecret := do
  let plaintext ← (decrypt crypto key blob).mapError fun _ => SecureStoreError.wrongKey
  let payload ← (crypto.payloads.fromSlice plaintext).mapError SecureStoreError.corrupt
  .ok payload.into

def openEntries (key : Key) (entries : OrderedDict String String) :
    Except SecureStoreError (OrderedDict String ConnectionSecret) :=
  OrderedDict.collect (fun _ => openEntry crypto key) 0 entries.entries .empty

/-- The new content of the file, as `write_file_at` builds it. -/
def serializeFile (inner : Inner) : Except SecureStoreError Bytes := do
  let entries ← OrderedDict.collect (sealEntry crypto world inner.key) 1 inner.secrets.entries .empty
  let verifier ← encrypt crypto world 0 inner.key verifierPlaintext
  (crypto.files.toVec
    { version := secretFileVersion, keyId := none, kdf := some kdfName
      salt := some (crypto.encode inner.salt), argon2 := some inner.params
      verifier := some verifier, entries := entries }).mapError SecureStoreError.corrupt

/-- `write_file_at` through `write_private`: the file is replaced by a rename, or stays
as it was. -/
def writeFile (inner : Inner) (file : Option Bytes) :
    Except SecureStoreError Unit × Option Bytes :=
  match serializeFile crypto world inner with
  | .error e => (.error e, file)
  | .ok bytes =>
    match world.write with
    | .error source => (.error (.io source), file)
    | .ok () => (.ok (), some bytes)

def createEmpty (masterKey : String) : Except SecureStoreError EncryptedFileSecretStore := do
  let salt ← world.salt.mapError SecureStoreError.random
  let params := Argon2ParamsFile.default
  let key ← (crypto.deriveKeyArgon2 masterKey salt params).mapError SecureStoreError.kdf
  let identifier := crypto.fingerprint key
  .ok ⟨identifier, ⟨key, salt, params, identifier, .empty⟩⟩

def required {α : Type} (value : Option α) (missing : String) : Except SecureStoreError α :=
  match value with
  | some value => .ok value
  | none => .error (.corrupt missing)

def openV2 (masterKey : String) (file : SecretFile) :
    Except SecureStoreError EncryptedFileSecretStore := do
  let saltB64 ← required file.salt "falta salt"
  let salt ← (crypto.decode saltB64).mapError SecureStoreError.corrupt
  if salt.length < 8 then
    .error (.corrupt "salt demasiado corta")
  else
    let params := file.argon2.getD .default
    if file.kdf.getD kdfName ≠ kdfName then
      .error (.corrupt ("KDF no soportado: Some(\"" ++ file.kdf.getD "" ++ "\")"))
    else
      let key ← (crypto.deriveKeyArgon2 masterKey salt params).mapError SecureStoreError.kdf
      let verifier ← required file.verifier "falta verifier"
      verifyCanary crypto key verifier
      let secrets ← openEntries crypto key file.entries
      let identifier := crypto.fingerprint key
      .ok ⟨identifier, ⟨key, salt, params, identifier, secrets⟩⟩

/-- The part of `open_and_migrate_v1` before its write. -/
def migrateV1 (masterKey : String) (file : SecretFile) :
    Except SecureStoreError EncryptedFileSecretStore := do
  let key := crypto.deriveKeySha256 masterKey
  let storedId ← required file.keyId "falta key_id en v1"
  if storedId ≠ crypto.fingerprint key then
    .error .wrongKey
  else
    let secrets ← openEntries crypto key file.entries
    let salt ← world.salt.mapError SecureStoreError.random
    let params := Argon2ParamsFile.default
    let newKey ← (crypto.deriveKeyArgon2 masterKey salt params).mapError SecureStoreError.kdf
    let identifier := crypto.fingerprint newKey
    .ok ⟨identifier, ⟨newKey, salt, params, identifier, secrets⟩⟩

def openAndMigrateV1 (masterKey : String) (file : SecretFile) (onDisk : Option Bytes) :
    Except SecureStoreError EncryptedFileSecretStore × Option Bytes :=
  match migrateV1 crypto world masterKey file with
  | .error e => (.error e, onDisk)
  | .ok store =>
    match writeFile crypto world store.inner onDisk with
    | (.error e, onDisk) => (.error e, onDisk)
    | (.ok (), onDisk) => (.ok store, onDisk)

/-- `EncryptedFileSecretStore::open`: the store, and the file behind it. -/
def openStore (masterKey : String) (onDisk : Option Bytes) :
    Except SecureStoreError EncryptedFileSecretStore × Option Bytes :=
  match onDisk with
  | none => (createEmpty crypto world masterKey, none)
  | some raw =>
    match world.read, crypto.files.fromSlice raw with
    | .error source, _ => (.error (.io source), onDisk)
    | .ok (), .error error => (.error (.corrupt error), onDisk)
    | .ok (), .ok file =>
      if file.version = legacySecretFileVersion then
        openAndMigrateV1 crypto world masterKey file onDisk
      else if file.version = secretFileVersion then (openV2 crypto masterKey file, onDisk)
      else (.error (.unsupportedVersion file.version), onDisk)

namespace EncryptedFileSecretStore

variable (s : EncryptedFileSecretStore) (file : Option Bytes)

/-- The secrets with another value, or none, at `reference`. -/
def put (reference : String) (secret : Option ConnectionSecret) : EncryptedFileSecretStore :=
  { s with inner := { s.inner with secrets := match secret with
      | some secret => s.inner.secrets.insert reference secret
      | none => s.inner.secrets.retain fun key _ => key ≠ reference } }

/-- `store`: a failed write puts back what was there. -/
def store (reference : String) (secret : ConnectionSecret) :
    Except SecureStoreError Unit × EncryptedFileSecretStore × Option Bytes :=
  let previous := s.inner.secrets.get? reference
  let s := s.put reference (some secret)
  match writeFile crypto world s.inner file with
  | (.error e, file) => (.error e, s.put reference previous, file)
  | (.ok (), file) => (.ok (), s, file)

/-- `remove`: nothing is written when there is no such secret. -/
def remove (reference : String) :
    Except SecureStoreError Unit × EncryptedFileSecretStore × Option Bytes :=
  match s.inner.secrets.get? reference with
  | none => (.ok (), s, file)
  | some previous =>
    let s := s.put reference none
    match writeFile crypto world s.inner file with
    | (.error e, file) => (.error e, s.put reference (some previous), file)
    | (.ok (), file) => (.ok (), s, file)

/-- `rotate_key` up to its write. -/
def pending (newMasterKey : String) : Except SecureStoreError Inner := do
  let salt ← world.salt.mapError SecureStoreError.random
  let params := Argon2ParamsFile.default
  let key ← (crypto.deriveKeyArgon2 newMasterKey salt params).mapError SecureStoreError.kdf
  .ok ⟨key, salt, params, crypto.fingerprint key, s.inner.secrets⟩

def rotateKey (newMasterKey : String) :
    Except SecureStoreError Unit × EncryptedFileSecretStore × Option Bytes :=
  match pending crypto world s newMasterKey with
  | .error e => (.error e, s, file)
  | .ok pending =>
    match writeFile crypto world pending file with
    | (.error e, file) => (.error e, s, file)
    | (.ok (), file) => (.ok (), ⟨pending.keyId, pending⟩, file)

end EncryptedFileSecretStore

end

end Jaiba.Connections
