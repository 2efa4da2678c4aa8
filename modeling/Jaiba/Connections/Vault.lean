import Mathlib.Data.Option.Basic
import Mathlib.Logic.Function.Basic
import Jaiba.Connections.SecretStore

/-!
# The secret store as a map under a master key

A `Vault` says what the store is for. The store in memory and its file carry the
same map after every call, and a call that fails leaves everything as it was.
-/

namespace Jaiba.Connections
open Jaiba.Lib

/-- A call on an open store. -/
inductive Call where
  | store (reference : String) (secret : ConnectionSecret)
  | remove (reference : String)
  | rotateKey (newMasterKey : String)

inductive Op where
  | call (c : Call)
  | reopen (masterKey : String)

structure Vault where
  map : String → Option ConnectionSecret
  masterKey : String

def Vault.call (v : Vault) : Call → Vault
  | .store reference secret => { v with map := Function.update v.map reference (some secret) }
  | .remove reference => { v with map := Function.update v.map reference none }
  | .rotateKey newMasterKey => { v with masterKey := newMasterKey }

/-- The file, the open store if there is one, and the vault of the calls that succeeded. -/
structure System where
  file : Option Bytes
  store : Option EncryptedFileSecretStore
  vault : Vault

section
variable (crypto : Crypto)

def EncryptedFileSecretStore.perform (world : World) (s : EncryptedFileSecretStore)
    (file : Option Bytes) :
    Call → Except SecureStoreError Unit × EncryptedFileSecretStore × Option Bytes
  | .store reference secret => s.store crypto world file reference secret
  | .remove reference => s.remove crypto world file reference
  | .rotateKey newMasterKey => s.rotateKey crypto world file newMasterKey

/-- A call and its result; `none` where there is no open store to call. A failed opening
leaves the store that is open. -/
def System.perform (s : System) (world : World) :
    Op → Option (Except SecureStoreError Unit × System)
  | .reopen masterKey =>
    match openStore crypto world masterKey s.file with
    | (.ok store, file) => some (.ok (), ⟨file, some store, { s.vault with masterKey := masterKey }⟩)
    | (.error e, file) => some (.error e, { s with file := file })
  | .call c => s.store.map fun store =>
    match store.perform crypto world s.file c with
    | (.ok (), store, file) => (.ok (), ⟨file, some store, s.vault.call c⟩)
    | (.error e, store, file) => (.error e, { s with file := file, store := some store })

def calls : Machine System (Op × World) :=
  ⟨fun s a => (s.perform crypto a.2 a.1).map Prod.snd⟩

/-- Argon2, AES-GCM and SHA-256 as ideal functions, and encodings that read back what
they wrote. -/
structure Ideal : Prop where
  decrypt_encrypt : ∀ {key nonce plaintext ciphertext}, crypto.encrypt key nonce plaintext =
    some ciphertext → crypto.decrypt key nonce ciphertext = some plaintext ∧ ciphertext ≠ []
  decrypt_other : ∀ {key key' nonce plaintext ciphertext}, crypto.encrypt key nonce plaintext =
    some ciphertext → key' ≠ key → crypto.decrypt key' nonce ciphertext = none
  derive_injective : ∀ {masterKey masterKey' salt params key},
    crypto.deriveKeyArgon2 masterKey salt params = .ok key →
    crypto.deriveKeyArgon2 masterKey' salt params = .ok key → masterKey' = masterKey
  fingerprint_injective : ∀ {masterKey masterKey'}, crypto.fingerprint (crypto.deriveKeySha256 masterKey) =
    crypto.fingerprint (crypto.deriveKeySha256 masterKey') → masterKey = masterKey'
  decode_encode : ∀ bytes, crypto.decode (crypto.encode bytes) = .ok bytes
  files : ∀ {file raw}, crypto.files.toVec file = .ok raw → crypto.files.fromSlice raw = .ok file
  payloads : ∀ {payload raw}, crypto.payloads.toVec payload = .ok raw →
    crypto.payloads.fromSlice raw = .ok payload

/-- The blob decrypts to the secret. -/
def Seals (key : Key) (secret : ConnectionSecret) (blob : String) : Prop :=
  openEntry crypto key blob = .ok secret

/-- A version 2 file that holds `v`. -/
structure Current (file : SecretFile) (v : Vault) : Prop where
  version : file.version = secretFileVersion
  kdf : file.kdf = some kdfName
  opens : ∃ (salt key : Bytes) (params : Argon2ParamsFile) (verifier : String),
    file.salt = some (crypto.encode salt) ∧ 8 ≤ salt.length ∧ file.argon2 = some params ∧
    crypto.deriveKeyArgon2 v.masterKey salt params = .ok key ∧ file.verifier = some verifier ∧
    decrypt crypto key verifier = .ok verifierPlaintext ∧
    (∀ key', key' ≠ key → decrypt crypto key' verifier = .error (.crypto "decrypt")) ∧
    ∀ k, Option.Rel (Seals crypto key) (v.map k) (file.entries.get? k)

/-- A version 1 file that holds `v`. -/
structure Legacy (file : SecretFile) (v : Vault) : Prop where
  version : file.version = legacySecretFileVersion
  keyId : file.keyId = some (crypto.fingerprint (crypto.deriveKeySha256 v.masterKey))
  entries : ∀ k, Option.Rel (Seals crypto (crypto.deriveKeySha256 v.masterKey))
    (v.map k) (file.entries.get? k)

/-- What the file says of the vault; without a file nothing is stored. -/
def Holds (onDisk : Option Bytes) (v : Vault) : Prop :=
  match onDisk with
  | none => ∀ k, v.map k = none
  | some raw => ∃ file, crypto.files.fromSlice raw = .ok file ∧
      (Current crypto file v ∨ Legacy crypto file v)

/-- What the open store says of the vault. -/
structure Agrees (store : EncryptedFileSecretStore) (v : Vault) : Prop where
  secrets : ∀ k, store.inner.secrets.get? k = v.map k
  key : crypto.deriveKeyArgon2 v.masterKey store.inner.salt store.inner.params = .ok store.inner.key
  salt : 8 ≤ store.inner.salt.length

structure Inv (s : System) : Prop where
  file : Holds crypto s.file s.vault
  store : ∀ store, s.store = some store → Agrees crypto store s.vault

variable {crypto} {world : World} {v : Vault}

/-! ### Sealing -/

theorem decrypt_encode (hideal : Ideal crypto) {key nonce ciphertext : Bytes}
    (hnonce : nonce.length = nonceLen) (hne : ciphertext ≠ []) :
    decrypt crypto key (crypto.encode (nonce ++ ciphertext)) =
      match crypto.decrypt key nonce ciphertext with
      | some plaintext => .ok plaintext
      | none => .error (SecureStoreError.crypto "decrypt") := by
  have hpos := List.length_pos_iff.mpr hne
  have hlong : ¬(nonce ++ ciphertext).length ≤ nonceLen := by
    rw [List.length_append]
    omega
  cases hplain : crypto.decrypt key nonce ciphertext with
  | none =>
    simp only [decrypt, hideal.decode_encode, Except.mapError, bind, Except.bind, if_neg hlong,
      List.take_left' hnonce, List.drop_left' hnonce, hplain]
  | some plaintext =>
    simp only [decrypt, hideal.decode_encode, Except.mapError, bind, Except.bind, if_neg hlong,
      List.take_left' hnonce, List.drop_left' hnonce, hplain]

/-- What is encrypted under a key comes back under that key, and under no other. -/
theorem encrypt_ok (hideal : Ideal crypto) {i : ℕ} {key plaintext : Bytes} {blob : String}
    (h : encrypt crypto world i key plaintext = .ok blob) : decrypt crypto key blob = .ok plaintext ∧
      ∀ key', key' ≠ key → decrypt crypto key' blob = .error (.crypto "decrypt") := by
  obtain ⟨nonce, hnonce, h⟩ := bind_ok h
  have hlength := world.length_nonce i nonce (of_mapError_ok hnonce)
  split at h
  · next ciphertext hcipher =>
    cases h
    obtain ⟨hdecrypt, hne⟩ := hideal.decrypt_encrypt hcipher
    refine ⟨?_, fun key' hkey => ?_⟩
    · rw [decrypt_encode hideal hlength hne, hdecrypt]
    · rw [decrypt_encode hideal hlength hne, hideal.decrypt_other hcipher hkey]
  · cases h

theorem sealEntry_ok (hideal : Ideal crypto) {key : Key} {i : ℕ} {secret : ConnectionSecret}
    {blob : String} (h : sealEntry crypto world key i secret = .ok blob) :
    Seals crypto key secret blob := by
  obtain ⟨plaintext, hplain, h⟩ := bind_ok h
  have hpayload := hideal.payloads (of_mapError_ok hplain)
  unfold Seals openEntry
  rw [(encrypt_ok hideal h).1]
  simp only [Except.mapError, bind, Except.bind, hpayload]
  rfl

/-- Entries that seal a map open as that map. -/
theorem openEntries_eq {key : Key} {entries : OrderedDict String String}
    {map : String → Option ConnectionSecret}
    (h : ∀ k, Option.Rel (Seals crypto key) (map k) (entries.get? k)) :
    ∃ secrets, openEntries crypto key entries = .ok secrets ∧ ∀ k, secrets.get? k = map k := by
  have hall : ∀ e ∈ entries.entries, ∀ j : ℕ, ∃ secret, openEntry crypto key e.2 = .ok secret := by
    intro e he _
    have hrel := h e.1
    rw [OrderedDict.get?_of_mem he] at hrel
    obtain ⟨secret, -, hseal⟩ := exists_of_rel_right hrel
    exact ⟨secret, hseal⟩
  obtain ⟨secrets, hsecrets⟩ := OrderedDict.collect_succeeds (i := 0) (d := OrderedDict.empty) hall
  refine ⟨secrets, hsecrets, fun k => ?_⟩
  have hout := OrderedDict.collect_rel hsecrets k
  have hrel := h k
  cases hblob : entries.get? k with
  | none =>
    rw [hblob] at hout hrel
    rw [eq_none_of_rel_right hrel, eq_none_of_rel_left hout]
  | some blob =>
    rw [hblob] at hout hrel
    obtain ⟨secret, hsecret, _, hopen⟩ := exists_of_rel_left hout
    obtain ⟨secret', hsecret', hseal⟩ := exists_of_rel_right hrel
    rw [hsecret, hsecret']
    cases hseal.symm.trans hopen
    rfl

/-! ### Writing -/

/-- What a write leaves of a store that agrees with `v` is a file that holds `v`. -/
theorem serializeFile_holds (hideal : Ideal crypto) {store : EncryptedFileSecretStore}
    (h : Agrees crypto store v) {raw : Bytes} (hraw : serializeFile crypto world store.inner = .ok raw) :
    Holds crypto (some raw) v := by
  obtain ⟨entries, hentries, hraw⟩ := bind_ok hraw
  obtain ⟨verifier, hverifier, hraw⟩ := bind_ok hraw
  refine ⟨_, hideal.files (of_mapError_ok hraw), .inl ⟨rfl, rfl, ?_⟩⟩
  obtain ⟨hcanary, hother⟩ := encrypt_ok hideal hverifier
  refine ⟨store.inner.salt, store.inner.key, store.inner.params, verifier, rfl, h.salt, rfl, h.key, rfl,
    hcanary, hother, fun k => ?_⟩
  have hrel := OrderedDict.collect_rel hentries k
  rw [h.secrets k] at hrel
  exact rel_mono (fun _ _ ⟨_, hseal⟩ => sealEntry_ok hideal hseal) hrel

theorem writeFile_ok (hideal : Ideal crypto) {store : EncryptedFileSecretStore}
    (h : Agrees crypto store v) {file file' : Option Bytes}
    (hwrite : writeFile crypto world store.inner file = (.ok (), file')) : Holds crypto file' v := by
  unfold writeFile at hwrite
  split at hwrite
  · cases hwrite
  · next raw hraw =>
    split at hwrite
    · cases hwrite
    · cases hwrite
      exact serializeFile_holds hideal h hraw

theorem writeFile_error {inner : Inner} {file file' : Option Bytes} {e : SecureStoreError}
    (h : writeFile crypto world inner file = (.error e, file')) : file' = file := by
  unfold writeFile at h
  split at h
  · cases h
    rfl
  · split at h
    · cases h
      rfl
    · cases h

/-! ### Calls on an open store -/

theorem get?_put (s : EncryptedFileSecretStore) (reference : String) (secret : Option ConnectionSecret)
    (k : String) : (s.put reference secret).inner.secrets.get? k =
      Function.update s.inner.secrets.get? reference secret k := by
  rw [Function.update_apply]
  unfold EncryptedFileSecretStore.put
  cases secret with
  | some secret => exact OrderedDict.get?_insert _ _ _ _
  | none =>
    dsimp only
    rw [OrderedDict.get?_retain_key]
    by_cases hk : k = reference
    · rw [if_neg (by simp [hk]), if_pos hk]
    · rw [if_pos (by simp [hk]), if_neg hk]

/-- Putting back what was there undoes a change. -/
theorem put_put (s : EncryptedFileSecretStore) (reference : String) (secret : Option ConnectionSecret) :
    (s.put reference secret).put reference (s.inner.secrets.get? reference) = s := by
  have hsecrets : ((s.put reference secret).put reference (s.inner.secrets.get? reference)).inner.secrets =
      s.inner.secrets := by
    refine OrderedDict.ext_get? fun k => ?_
    have hinner : (s.put reference secret).inner.secrets.get? =
        Function.update s.inner.secrets.get? reference secret := funext (get?_put s reference secret)
    rw [get?_put, hinner, Function.update_idem, Function.update_eq_self]
  obtain ⟨fingerprint, key, salt, params, keyId, secrets⟩ := s
  unfold EncryptedFileSecretStore.put at hsecrets ⊢
  dsimp only at hsecrets ⊢
  rw [hsecrets]

theorem Agrees.put {store : EncryptedFileSecretStore} (h : Agrees crypto store v) (reference : String)
    (secret : Option ConnectionSecret) :
    Agrees crypto (store.put reference secret) { v with map := Function.update v.map reference secret } := by
  refine ⟨fun k => ?_, h.key, h.salt⟩
  have hmap : store.inner.secrets.get? = v.map := funext h.secrets
  rw [get?_put, hmap]

theorem Agrees.pending {store : EncryptedFileSecretStore} (h : Agrees crypto store v)
    {newMasterKey : String} {pending : Inner}
    (hp : store.pending crypto world newMasterKey = .ok pending) (fingerprint : String) :
    Agrees crypto ⟨fingerprint, pending⟩ { v with masterKey := newMasterKey } := by
  obtain ⟨salt, hsalt, hp⟩ := bind_ok hp
  obtain ⟨key, hkey, hp⟩ := bind_ok hp
  cases hp
  refine ⟨h.secrets, of_mapError_ok hkey, ?_⟩
  rw [world.length_salt salt (of_mapError_ok hsalt), saltLen]
  omega

/-- A call that succeeds does to the vault what it says, in memory and on disk. -/
theorem call_ok (hideal : Ideal crypto) {store store' : EncryptedFileSecretStore}
    {file file' : Option Bytes} (hstore : Agrees crypto store v) (hfile : Holds crypto file v) {c : Call}
    (h : store.perform crypto world file c = (.ok (), store', file')) :
    Agrees crypto store' (v.call c) ∧ Holds crypto file' (v.call c) := by
  cases c with
  | store reference secret =>
    have hput := hstore.put reference (some secret)
    unfold EncryptedFileSecretStore.perform EncryptedFileSecretStore.store at h
    dsimp only at h
    split at h
    · cases h
    · next hwrite =>
      cases h
      exact ⟨hput, writeFile_ok hideal hput hwrite⟩
  | remove reference =>
    have hput := hstore.put reference none
    unfold EncryptedFileSecretStore.perform EncryptedFileSecretStore.remove at h
    dsimp only at h
    split at h
    · next hnone =>
      cases h
      have hsame : Function.update v.map reference none = v.map := by
        rw [hstore.secrets] at hnone
        rw [← hnone, Function.update_eq_self]
      rw [Vault.call, hsame]
      exact ⟨hstore, hfile⟩
    · split at h
      · cases h
      · next hwrite =>
        cases h
        exact ⟨hput, writeFile_ok hideal hput hwrite⟩
  | rotateKey newMasterKey =>
    unfold EncryptedFileSecretStore.perform EncryptedFileSecretStore.rotateKey at h
    dsimp only at h
    split at h
    · cases h
    · next pending hp =>
      have hpending := hstore.pending hp pending.keyId
      split at h
      · cases h
      · next hwrite =>
        cases h
        exact ⟨hpending, writeFile_ok hideal hpending hwrite⟩

/-- A call that fails leaves the store and the file as they were. -/
theorem call_error {store store' : EncryptedFileSecretStore} {file file' : Option Bytes} {c : Call}
    {e : SecureStoreError} (h : store.perform crypto world file c = (.error e, store', file')) :
    store' = store ∧ file' = file := by
  cases c with
  | store reference secret =>
    unfold EncryptedFileSecretStore.perform EncryptedFileSecretStore.store at h
    dsimp only at h
    split at h
    · next hwrite =>
      cases h
      exact ⟨put_put store reference (some secret), writeFile_error hwrite⟩
    · cases h
  | remove reference =>
    unfold EncryptedFileSecretStore.perform EncryptedFileSecretStore.remove at h
    dsimp only at h
    split at h
    · cases h
    · next previous hprevious =>
      split at h
      · next hwrite =>
        cases h
        have hback := put_put store reference none
        rw [hprevious] at hback
        exact ⟨hback, writeFile_error hwrite⟩
      · cases h
  | rotateKey newMasterKey =>
    unfold EncryptedFileSecretStore.perform EncryptedFileSecretStore.rotateKey at h
    dsimp only at h
    split at h
    · cases h
      exact ⟨rfl, rfl⟩
    · split at h
      · next hwrite =>
        cases h
        exact ⟨rfl, writeFile_error hwrite⟩
      · cases h

/-! ### Opening -/

/-- An error that refuses neither the key nor the file: of the machine the store runs on, or
of a serialisation. -/
def Environmental (crypto : Crypto) : SecureStoreError → Prop
  | .io _ | .crypto _ | .kdf _ | .random _ => True
  | .corrupt error => (∃ file, crypto.files.toVec file = .error error) ∨
      ∃ payload, crypto.payloads.toVec payload = .error error
  | _ => False

theorem Agrees.of_empty {store : EncryptedFileSecretStore} {masterKey : String}
    (h : createEmpty crypto world masterKey = .ok store) (hmap : ∀ k, v.map k = none) :
    Agrees crypto store { v with masterKey := masterKey } := by
  obtain ⟨salt, hsalt, h⟩ := bind_ok h
  obtain ⟨key, hkey, h⟩ := bind_ok h
  cases h
  refine ⟨fun k => (hmap k).symm, of_mapError_ok hkey, ?_⟩
  rw [world.length_salt salt (of_mapError_ok hsalt), saltLen]
  omega

theorem verifyCanary_ok {key : Key} {verifier : String}
    (h : decrypt crypto key verifier = .ok verifierPlaintext) : verifyCanary crypto key verifier = .ok () := by
  unfold verifyCanary
  rw [h]
  simp only [Except.mapError, bind, Except.bind, ne_eq, not_true_eq_false, if_false]

theorem verifyCanary_error {key : Key} {verifier : String} {e : SecureStoreError}
    (h : decrypt crypto key verifier = .error e) : verifyCanary crypto key verifier = .error .wrongKey := by
  unfold verifyCanary
  rw [h]
  rfl

/-- What opening a version 2 file comes to: the derivation of the key, the canary and the entries. -/
theorem openV2_steps (hideal : Ideal crypto) {file : SecretFile} {salt : Bytes} {params : Argon2ParamsFile}
    {verifier : String} (hkdf : file.kdf = some kdfName) (hsalt : file.salt = some (crypto.encode salt))
    (hlength : 8 ≤ salt.length) (hparams : file.argon2 = some params)
    (hverifier : file.verifier = some verifier) (masterKey : String) :
    openV2 crypto masterKey file = (do
      let key ← (crypto.deriveKeyArgon2 masterKey salt params).mapError SecureStoreError.kdf
      verifyCanary crypto key verifier
      let secrets ← openEntries crypto key file.entries
      .ok ⟨crypto.fingerprint key, ⟨key, salt, params, crypto.fingerprint key, secrets⟩⟩) := by
  unfold openV2
  simp only [hsalt, hverifier, hkdf, hparams, required, hideal.decode_encode, Except.mapError, bind,
    Except.bind, Option.getD_some, ne_eq, not_true_eq_false, if_false]
  rw [if_neg (by omega)]

theorem openV2_eq (hideal : Ideal crypto) {file : SecretFile} (h : Current crypto file v) :
    ∃ store, openV2 crypto v.masterKey file = .ok store ∧ Agrees crypto store v := by
  obtain ⟨salt, key, params, verifier, hsalt, hlength, hparams, hkey, hverifier, hcanary, -, hentries⟩ :=
    h.opens
  obtain ⟨secrets, hsecrets, hmap⟩ := openEntries_eq hentries
  rw [openV2_steps hideal h.kdf hsalt hlength hparams hverifier, hkey]
  simp only [Except.mapError, bind, Except.bind, verifyCanary_ok hcanary, hsecrets]
  exact ⟨_, rfl, hmap, hkey, hlength⟩

theorem openV2_other (hideal : Ideal crypto) {file : SecretFile} (h : Current crypto file v)
    {masterKey : String} (hother : masterKey ≠ v.masterKey) :
    ∃ e, openV2 crypto masterKey file = .error e := by
  obtain ⟨salt, key, params, verifier, hsalt, hlength, hparams, hkey, hverifier, -, hwrong, -⟩ := h.opens
  rw [openV2_steps hideal h.kdf hsalt hlength hparams hverifier]
  cases hderived : crypto.deriveKeyArgon2 masterKey salt params with
  | error e => exact ⟨_, rfl⟩
  | ok key' =>
    have hne : key' ≠ key := by
      rintro rfl
      exact hother (hideal.derive_injective hkey hderived)
    simp only [Except.mapError, bind, Except.bind, verifyCanary_error (hwrong key' hne)]
    exact ⟨_, rfl⟩

/-- Before its write the migration only needs random bytes and the derivation. -/
theorem migrateV1_steps {file : SecretFile} (h : Legacy crypto file v) :
    ∃ secrets : OrderedDict String ConnectionSecret, (∀ k, secrets.get? k = v.map k) ∧
      migrateV1 crypto world v.masterKey file = (do
        let salt ← world.salt.mapError SecureStoreError.random
        let key ← (crypto.deriveKeyArgon2 v.masterKey salt .default).mapError SecureStoreError.kdf
        .ok ⟨crypto.fingerprint key, ⟨key, salt, .default, crypto.fingerprint key, secrets⟩⟩) := by
  obtain ⟨secrets, hsecrets, hmap⟩ := openEntries_eq h.entries
  refine ⟨secrets, hmap, ?_⟩
  unfold migrateV1
  simp only [h.keyId, required, bind, Except.bind, ne_eq, not_true_eq_false, if_false, hsecrets]

theorem migrateV1_ok {file : SecretFile} (h : Legacy crypto file v) {store : EncryptedFileSecretStore}
    (hm : migrateV1 crypto world v.masterKey file = .ok store) : Agrees crypto store v := by
  obtain ⟨secrets, hmap, hsteps⟩ := migrateV1_steps h
  rw [hsteps] at hm
  obtain ⟨salt, hsalt, hm⟩ := bind_ok hm
  obtain ⟨key, hkey, hm⟩ := bind_ok hm
  cases hm
  refine ⟨hmap, of_mapError_ok hkey, ?_⟩
  rw [world.length_salt salt (of_mapError_ok hsalt), saltLen]
  omega

theorem migrateV1_error {file : SecretFile} (h : Legacy crypto file v) {e : SecureStoreError}
    (hm : migrateV1 crypto world v.masterKey file = .error e) : Environmental crypto e := by
  obtain ⟨secrets, -, hsteps⟩ := migrateV1_steps h
  rw [hsteps] at hm
  cases hsalt : world.salt with
  | error error =>
    rw [hsalt] at hm
    cases hm
    trivial
  | ok salt =>
    rw [hsalt] at hm
    cases hkey : crypto.deriveKeyArgon2 v.masterKey salt .default with
    | error error =>
      simp only [Except.mapError, bind, Except.bind, hkey] at hm
      cases hm
      trivial
    | ok key =>
      simp only [Except.mapError, bind, Except.bind, hkey] at hm
      cases hm

theorem migrateV1_other (hideal : Ideal crypto) {file : SecretFile} (h : Legacy crypto file v)
    {masterKey : String} (hother : masterKey ≠ v.masterKey) :
    migrateV1 crypto world masterKey file = .error .wrongKey := by
  have hne : crypto.fingerprint (crypto.deriveKeySha256 v.masterKey) ≠
      crypto.fingerprint (crypto.deriveKeySha256 masterKey) :=
    fun heq => hother (hideal.fingerprint_injective heq).symm
  unfold migrateV1
  simp only [h.keyId, required, bind, Except.bind]
  rw [if_pos hne]

theorem encrypt_error {i : ℕ} {key plaintext : Bytes} {e : SecureStoreError}
    (h : encrypt crypto world i key plaintext = .error e) : Environmental crypto e := by
  unfold encrypt at h
  cases hnonce : world.nonce i with
  | error error =>
    rw [hnonce] at h
    cases h
    trivial
  | ok nonce =>
    rw [hnonce] at h
    simp only [Except.mapError, bind, Except.bind] at h
    split at h
    · cases h
    · cases h
      trivial

theorem sealEntry_error {key : Key} {i : ℕ} {secret : ConnectionSecret} {e : SecureStoreError}
    (h : sealEntry crypto world key i secret = .error e) : Environmental crypto e := by
  unfold sealEntry at h
  cases hplain : crypto.payloads.toVec (.from secret) with
  | error error =>
    rw [hplain] at h
    cases h
    exact .inr ⟨_, hplain⟩
  | ok plaintext =>
    rw [hplain] at h
    exact encrypt_error h

theorem of_mapError_error {ε ε' α : Type} {x : Except ε α} {f : ε → ε'} {e : ε'}
    (h : x.mapError f = .error e) : ∃ e', x = .error e' ∧ f e' = e := by
  cases x with
  | error e' =>
    cases h
    exact ⟨e', rfl, rfl⟩
  | ok a => cases h

theorem serializeFile_error {inner : Inner} {e : SecureStoreError}
    (h : serializeFile crypto world inner = .error e) : Environmental crypto e := by
  unfold serializeFile at h
  cases hentries : OrderedDict.collect (sealEntry crypto world inner.key) 1 inner.secrets.entries .empty with
  | error error =>
    rw [hentries] at h
    cases h
    obtain ⟨j, a, ha⟩ := OrderedDict.collect_error hentries
    exact sealEntry_error ha
  | ok entries =>
    rw [hentries] at h
    cases hverifier : encrypt crypto world 0 inner.key verifierPlaintext with
    | error error =>
      simp only [bind, Except.bind, hverifier] at h
      cases h
      exact encrypt_error hverifier
    | ok verifier =>
      simp only [bind, Except.bind, hverifier] at h
      obtain ⟨error, herror, rfl⟩ := of_mapError_error h
      exact .inl ⟨_, herror⟩

theorem writeFile_environmental {inner : Inner} {file file' : Option Bytes}
    {e : SecureStoreError} (h : writeFile crypto world inner file = (.error e, file')) : Environmental crypto e := by
  unfold writeFile at h
  split at h
  · next hserialize =>
    cases h
    exact serializeFile_error hserialize
  · split at h
    · cases h
      trivial
    · cases h

/-- A failed opening leaves the file as it was. -/
theorem openStore_error {masterKey : String} {file file' : Option Bytes} {e : SecureStoreError}
    (h : openStore crypto world masterKey file = (.error e, file')) : file' = file := by
  unfold openStore at h
  split at h
  · exact (Prod.mk.inj h).2.symm
  · split at h
    · cases h
      rfl
    · cases h
      rfl
    · split at h
      · unfold openAndMigrateV1 at h
        split at h
        · cases h
          rfl
        · split at h
          · next hwrite =>
            cases h
            exact writeFile_error hwrite
          · cases h
      · split at h
        · exact (Prod.mk.inj h).2.symm
        · cases h
          rfl

theorem openStore_current {raw : Bytes} {file : SecretFile} (hparse : crypto.files.fromSlice raw = .ok file)
    (h : Current crypto file v) (hread : world.read = .ok ()) (masterKey : String) :
    openStore crypto world masterKey (some raw) = (openV2 crypto masterKey file, some raw) := by
  unfold openStore
  simp only [hread, hparse, h.version, secretFileVersion, legacySecretFileVersion, OfNat.ofNat_ne_one,
    if_false, if_true]

theorem openStore_legacy {raw : Bytes} {file : SecretFile} (hparse : crypto.files.fromSlice raw = .ok file)
    (h : Legacy crypto file v) (hread : world.read = .ok ()) (masterKey : String) :
    openStore crypto world masterKey (some raw) =
      openAndMigrateV1 crypto world masterKey file (some raw) := by
  unfold openStore
  simp only [hread, hparse, h.version, if_true]

theorem openStore_unread {masterKey source : String} {raw : Bytes} (hread : world.read = .error source) :
    openStore crypto world masterKey (some raw) = (.error (.io source), some raw) := by
  unfold openStore
  simp only [hread]

theorem openAndMigrateV1_ok (hideal : Ideal crypto) {file : SecretFile} (h : Legacy crypto file v)
    {onDisk onDisk' : Option Bytes} {store : EncryptedFileSecretStore}
    (hm : openAndMigrateV1 crypto world v.masterKey file onDisk = (.ok store, onDisk')) :
    Agrees crypto store v ∧ Holds crypto onDisk' v := by
  unfold openAndMigrateV1 at hm
  split at hm
  · cases hm
  · next hstore =>
    split at hm
    · cases hm
    · next hwrite =>
      cases hm
      have hagrees := migrateV1_ok h hstore
      exact ⟨hagrees, writeFile_ok hideal hagrees hwrite⟩

theorem openAndMigrateV1_error {file : SecretFile} (h : Legacy crypto file v)
    {onDisk onDisk' : Option Bytes} {e : SecureStoreError}
    (hm : openAndMigrateV1 crypto world v.masterKey file onDisk = (.error e, onDisk')) :
    Environmental crypto e := by
  unfold openAndMigrateV1 at hm
  split at hm
  · next herror =>
    cases hm
    exact migrateV1_error h herror
  · split at hm
    · next hwrite =>
      cases hm
      exact writeFile_environmental hwrite
    · cases hm

/-- A successful opening finds the vault, whatever the key where there is no file. -/
theorem openStore_ok (hideal : Ideal crypto) {masterKey : String} {file file' : Option Bytes}
    (hfile : Holds crypto file v) (hkey : file = none ∨ masterKey = v.masterKey)
    {store : EncryptedFileSecretStore}
    (h : openStore crypto world masterKey file = (.ok store, file')) :
    Agrees crypto store { v with masterKey := masterKey } ∧
      Holds crypto file' { v with masterKey := masterKey } := by
  cases file with
  | none =>
    obtain ⟨hstore, rfl⟩ := Prod.mk.inj h
    exact ⟨.of_empty hstore hfile, hfile⟩
  | some raw =>
    obtain rfl : masterKey = v.masterKey := hkey.resolve_left (Option.some_ne_none raw)
    cases hread : world.read with
    | error source =>
      rw [openStore_unread hread] at h
      cases h
    | ok =>
      obtain ⟨file, hparse, hcurrent | hlegacy⟩ := id hfile
      · obtain ⟨store', hstore', hagrees⟩ := openV2_eq hideal hcurrent
        rw [openStore_current hparse hcurrent hread, hstore'] at h
        cases h
        exact ⟨hagrees, hfile⟩
      · rw [openStore_legacy hparse hlegacy hread] at h
        exact openAndMigrateV1_ok hideal hlegacy h

/-- With the key of the vault an opening fails for reasons of the machine only. -/
theorem openStore_environmental (hideal : Ideal crypto) {file file' : Option Bytes}
    (hfile : Holds crypto file v) {e : SecureStoreError}
    (h : openStore crypto world v.masterKey file = (.error e, file')) : Environmental crypto e := by
  cases file with
  | none =>
    have hempty := (Prod.mk.inj h).1
    unfold createEmpty at hempty
    cases hsalt : world.salt with
    | error error =>
      rw [hsalt] at hempty
      cases hempty
      trivial
    | ok salt =>
      rw [hsalt] at hempty
      cases hkey : crypto.deriveKeyArgon2 v.masterKey salt .default with
      | error error =>
        simp only [Except.mapError, bind, Except.bind, hkey] at hempty
        cases hempty
        trivial
      | ok key =>
        simp only [Except.mapError, bind, Except.bind, hkey] at hempty
        cases hempty
  | some raw =>
    cases hread : world.read with
    | error source =>
      rw [openStore_unread hread] at h
      cases h
      trivial
    | ok =>
      obtain ⟨file, hparse, hcurrent | hlegacy⟩ := hfile
      · obtain ⟨store', hstore', -⟩ := openV2_eq hideal hcurrent
        rw [openStore_current hparse hcurrent hread, hstore'] at h
        cases h
      · rw [openStore_legacy hparse hlegacy hread] at h
        exact openAndMigrateV1_error hlegacy h

/-- With another key the opening of an existing file fails. -/
theorem openStore_other (hideal : Ideal crypto) {raw : Bytes} (hfile : Holds crypto (some raw) v)
    {masterKey : String} (hother : masterKey ≠ v.masterKey) :
    ∃ e, openStore crypto world masterKey (some raw) = (.error e, some raw) := by
  cases hread : world.read with
  | error source => exact ⟨_, openStore_unread hread⟩
  | ok =>
    obtain ⟨file, hparse, hcurrent | hlegacy⟩ := hfile
    · obtain ⟨e, he⟩ := openV2_other hideal hcurrent hother
      rw [openStore_current hparse hcurrent hread, he]
      exact ⟨e, rfl⟩
    · rw [openStore_legacy hparse hlegacy hread]
      unfold openAndMigrateV1
      rw [migrateV1_other hideal hlegacy hother]
      exact ⟨_, rfl⟩

/-! ### Runs -/

theorem perform_ok (hideal : Ideal crypto) {s t : System} (h : Inv crypto s) {op : Op}
    (hp : s.perform crypto world op = some (.ok (), t)) : Inv crypto t := by
  cases op with
  | reopen masterKey =>
    unfold System.perform at hp
    dsimp only at hp
    split at hp
    · next store file hopen =>
      cases hp
      have hkey : s.file = none ∨ masterKey = s.vault.masterKey := by
        cases hfile : s.file with
        | none => exact .inl rfl
        | some raw =>
          by_contra hother
          rw [not_or] at hother
          have hholds := h.file
          rw [hfile] at hholds hopen
          obtain ⟨e, he⟩ := @openStore_other crypto world s.vault hideal raw hholds masterKey hother.2
          cases hopen.symm.trans he
      obtain ⟨hagrees, hholds⟩ := openStore_ok hideal h.file hkey hopen
      refine ⟨hholds, fun store' hstore' => ?_⟩
      cases hstore'
      exact hagrees
    · cases hp
  | call c =>
    obtain ⟨store, hstore, hp⟩ := Option.map_eq_some_iff.mp hp
    split at hp
    · next hcall =>
      cases hp
      obtain ⟨hagrees, hholds⟩ := call_ok hideal (h.store store hstore) h.file hcall
      refine ⟨hholds, fun store' hstore' => ?_⟩
      cases hstore'
      exact hagrees
    · cases hp

/-- A call or an opening that fails changes nothing. -/
theorem perform_error {s t : System} {op : Op} {e : SecureStoreError}
    (hp : s.perform crypto world op = some (.error e, t)) : t = s := by
  cases op with
  | reopen masterKey =>
    unfold System.perform at hp
    dsimp only at hp
    split at hp
    · cases hp
    · next hopen =>
      cases hp
      rw [openStore_error hopen]
  | call c =>
    obtain ⟨store, hstore, hp⟩ := Option.map_eq_some_iff.mp hp
    split at hp
    · cases hp
    · next hcall =>
      cases hp
      obtain ⟨rfl, rfl⟩ := call_error hcall
      rw [← hstore]

theorem reach_inv (hideal : Ideal crypto) {s t : System} (h : Inv crypto s)
    (hr : (calls crypto).Reachable s t) : Inv crypto t := by
  refine hr.invariant h fun s a t hs _ hstep => ?_
  obtain ⟨⟨result, t'⟩, hp, rfl⟩ := Option.map_eq_some_iff.mp hstep
  cases result with
  | ok => exact perform_ok hideal hs hp
  | error e =>
    obtain rfl := perform_error hp
    exact hs

/-- From any file of the vault (none yet, version 1 or version 2), whatever fails during the
calls: the open store is the vault; opening with its key finds the vault, and fails for
reasons of the machine only, never on a version 2 file that can be read; a call that fails
changes nothing; and no other key opens an existing file. -/
theorem secret_store_refines (crypto : Crypto) (hideal : Ideal crypto) (start s : System)
    (hclosed : start.store = none) (hstart : Holds crypto start.file start.vault)
    (hr : (calls crypto).Reachable start s) :
    (∀ store, s.store = some store → ∀ k, store.inner.secrets.get? k = s.vault.map k) ∧
    (∀ (world : World) (store : EncryptedFileSecretStore) (file : Option Bytes),
      openStore crypto world s.vault.masterKey s.file = (.ok store, file) →
        ∀ k, store.inner.secrets.get? k = s.vault.map k) ∧
    (∀ (world : World) (e : SecureStoreError) (file : Option Bytes),
      openStore crypto world s.vault.masterKey s.file = (.error e, file) → Environmental crypto e) ∧
    (∀ (world : World) (raw : Bytes) (file : SecretFile), s.file = some raw →
      crypto.files.fromSlice raw = .ok file → file.version = secretFileVersion → world.read = .ok () →
        ∃ store, openStore crypto world s.vault.masterKey s.file = (.ok store, s.file)) ∧
    (∀ (world : World) (op : Op) (e : SecureStoreError) (t : System),
      s.perform crypto world op = some (.error e, t) → t = s) ∧
    (∀ (world : World) (masterKey : String), s.file ≠ none → masterKey ≠ s.vault.masterKey →
      ∃ e, openStore crypto world masterKey s.file = (.error e, s.file)) ∧
    (s.file = none → ∀ k, s.vault.map k = none) := by
  have hinv : Inv crypto s := by
    refine reach_inv hideal ⟨hstart, fun store hstore => ?_⟩ hr
    rw [hclosed] at hstore
    cases hstore
  refine ⟨fun store hstore => (hinv.store store hstore).secrets, fun world store file hopen => ?_,
    fun world e file hopen => openStore_environmental hideal hinv.file hopen, ?_,
    fun world op e t hp => perform_error hp, ?_, fun hnone => ?_⟩
  · exact (openStore_ok hideal hinv.file (.inr rfl) hopen).1.secrets
  · intro world raw file hraw hparse hversion hread
    have hholds := hinv.file
    rw [hraw] at hholds ⊢
    obtain ⟨file', hparse', hcurrent | hlegacy⟩ := hholds
    · obtain ⟨store, hstore, -⟩ := openV2_eq hideal hcurrent
      rw [openStore_current hparse' hcurrent hread, hstore]
      exact ⟨store, rfl⟩
    · cases hparse.symm.trans hparse'
      cases hversion.symm.trans hlegacy.version
  · intro world masterKey hsome hother
    obtain ⟨raw, hraw⟩ := Option.ne_none_iff_exists'.mp hsome
    have hholds := hinv.file
    rw [hraw] at hholds ⊢
    exact openStore_other hideal hholds hother
  · have hholds := hinv.file
    rw [hnone] at hholds
    exact hholds

end

/-! ### A sample -/

/-- A key and what is encrypted under it: every byte of the key behind a one, then a zero. -/
def sampleFrame : Key → Bytes
  | [] => [0]
  | b :: key => 1 :: b :: sampleFrame key

def sampleStrip : Key → Bytes → Option Bytes
  | [], 0 :: rest => some rest
  | b :: key, 1 :: c :: rest => if b = c then sampleStrip key rest else none
  | _, _ => none

theorem sampleStrip_frame (key plaintext : Bytes) :
    sampleStrip key (sampleFrame key ++ plaintext) = some plaintext := by
  induction key with
  | nil => rfl
  | cons b key ih =>
    rw [sampleFrame, List.cons_append, List.cons_append, sampleStrip, if_pos rfl, ih]

theorem sampleStrip_other {key key' : Bytes} (h : key' ≠ key) (plaintext : Bytes) :
    sampleStrip key' (sampleFrame key ++ plaintext) = none := by
  induction key generalizing key' with
  | nil =>
    cases key' with
    | nil => exact absurd rfl h
    | cons b key' => rfl
  | cons b key ih =>
    cases key' with
    | nil => rfl
    | cons c key' =>
      rw [sampleFrame, List.cons_append, List.cons_append, sampleStrip]
      split
      · next hbc =>
        subst hbc
        exact ih fun he => h (he ▸ rfl)
      · rfl

def sampleSecret : ConnectionSecret := ⟨"dma", "s3cr3t", []⟩

def samplePayloadText : Bytes := utf8 "\x7b\"username\":\"dma\",\"password\":\"s3cr3t\",\"options\":\x7b\x7d\x7d"

def sampleEncode (bytes : Bytes) : String := String.ofList (bytes.map fun b => Char.ofNat b.toNat)

def sampleSalt : Bytes := List.replicate saltLen 7
def sampleNonce (i : ℕ) : Bytes := List.replicate nonceLen (UInt8.ofNat i)

/-- The file after one secret is stored under the master key `master`. -/
def sampleFile : SecretFile where
  version := 2
  keyId := none
  kdf := some kdfName
  salt := some (sampleEncode sampleSalt)
  argon2 := some .default
  verifier := some (sampleEncode (sampleNonce 0 ++ (sampleFrame (utf8 "master") ++ verifierPlaintext)))
  entries := OrderedDict.empty.insert "db"
    (sampleEncode (sampleNonce 1 ++ (sampleFrame (utf8 "master") ++ samplePayloadText)))

/-- The functions of the other crates on the calls below. -/
def sampleCrypto : Crypto where
  deriveKeyArgon2 masterKey _ _ := .ok (utf8 masterKey)
  deriveKeySha256 masterKey := utf8 masterKey
  fingerprint key := (ofUtf8? key).getD ""
  encrypt key _ plaintext := some (sampleFrame key ++ plaintext)
  decrypt key _ ciphertext := sampleStrip key ciphertext
  encode := sampleEncode
  decode text := .ok (text.toList.map fun c => UInt8.ofNat c.toNat)
  files :=
    { toVec := fun file => if file = sampleFile then .ok (utf8 "file") else .error "unknown file"
      fromSlice := fun raw => if raw = utf8 "file" then .ok sampleFile else .error "unknown text" }
  payloads :=
    { toVec := fun payload => if payload = .from sampleSecret then .ok samplePayloadText
        else .error "unknown payload"
      fromSlice := fun raw => if raw = samplePayloadText then .ok (.from sampleSecret)
        else .error "unknown text" }

theorem sampleDecode (bytes : Bytes) :
    (sampleEncode bytes).toList.map (fun c => UInt8.ofNat c.toNat) = bytes := by
  rw [sampleEncode, String.toList_ofList, List.map_map]
  conv_rhs => rw [← List.map_id bytes]
  refine List.map_congr_left fun b _ => ?_
  have hlt := b.toNat_lt
  have hvalid : b.toNat.isValidChar := by
    left
    omega
  have hchar : (Char.ofNat b.toNat).toNat = b.toNat := by
    rw [Char.ofNat, dif_pos hvalid]
    rfl
  rw [Function.comp_apply, hchar, UInt8.ofNat_toNat]
  rfl

theorem sampleCrypto_ideal : Ideal sampleCrypto where
  decrypt_encrypt := by
    intro key nonce plaintext ciphertext h
    cases h
    refine ⟨sampleStrip_frame key plaintext, ?_⟩
    cases key with
    | nil => exact List.cons_ne_nil _ _
    | cons b key => exact List.cons_ne_nil _ _
  decrypt_other := by
    intro key key' nonce plaintext ciphertext h hne
    cases h
    exact sampleStrip_other hne plaintext
  derive_injective := by
    intro masterKey masterKey' salt params key h h'
    exact utf8_injective (Except.ok.inj (h'.trans h.symm))
  fingerprint_injective := by
    intro masterKey masterKey' h
    simpa only [sampleCrypto, ofUtf8?_utf8, Option.getD_some] using h
  decode_encode := fun bytes => congrArg Except.ok (sampleDecode bytes)
  files := by
    intro file raw h
    simp only [sampleCrypto] at h ⊢
    split at h
    · next hfile =>
      cases h
      rw [if_pos rfl, hfile]
    · cases h
  payloads := by
    intro payload raw h
    simp only [sampleCrypto] at h ⊢
    split at h
    · next hpayload =>
      cases h
      rw [if_pos rfl, hpayload]
    · cases h

def sampleWorld : World where
  salt := .ok sampleSalt
  nonce i := .ok (sampleNonce i)
  read := .ok ()
  write := .ok ()
  length_salt := fun bytes h => by
    cases h
    rfl
  length_nonce := fun i bytes h => by
    cases h
    exact List.length_replicate

def sampleStart : System := ⟨none, none, ⟨fun _ => none, "master"⟩⟩

/-- A secret is stored and found again at the next start, and another key is refused. -/
theorem secret_store_refines_sample : ∃ s, (calls sampleCrypto).Reachable sampleStart s ∧
    s.vault.masterKey = "master" ∧ (s.vault.map "db").isSome ∧
    (∃ store, openStore sampleCrypto sampleWorld "master" s.file = (.ok store, s.file)) ∧
    ∃ e, openStore sampleCrypto sampleWorld "stolen" s.file = (.error e, s.file) := by
  have hrun : ((calls sampleCrypto).exec sampleStart [(.reopen "master", sampleWorld),
      (.call (.store "db" sampleSecret), sampleWorld)]).any (fun s =>
        s.vault.masterKey = "master" && (s.vault.map "db").isSome && s.file = some (utf8 "file")) =
      true := by
    decide +kernel
  obtain ⟨s, hexec, hfacts⟩ := (Option.any_eq_true _ _).mp hrun
  rw [Bool.and_eq_true, Bool.and_eq_true, decide_eq_true_eq, decide_eq_true_eq] at hfacts
  obtain ⟨⟨hkey, hstored⟩, hfile⟩ := hfacts
  have hr : (calls sampleCrypto).Reachable sampleStart s := .of_exec _ hexec fun _ _ _ => trivial
  obtain ⟨-, -, -, hopens, -, hrefuses, -⟩ := secret_store_refines sampleCrypto sampleCrypto_ideal
    sampleStart s rfl (fun _ => rfl) hr
  rw [hkey] at hopens hrefuses
  have hsome : s.file ≠ none := by
    rw [hfile]
    exact Option.some_ne_none _
  have hparse : sampleCrypto.files.fromSlice (utf8 "file") = .ok sampleFile := by
    simp only [sampleCrypto, if_true]
  exact ⟨s, hr, hkey, hstored, hopens sampleWorld _ sampleFile hfile hparse rfl rfl,
    hrefuses sampleWorld "stolen" hsome (by decide)⟩

/-- Before anything is written another key than the current one opens the store. -/
theorem other_key_opens : ∃ s, (calls sampleCrypto).Reachable sampleStart s ∧
    s.store.isSome ∧ s.vault.masterKey = "master" ∧
    ∃ store, openStore sampleCrypto sampleWorld "stolen" s.file = (.ok store, s.file) := by
  have hrun : ((calls sampleCrypto).exec sampleStart [(.reopen "master", sampleWorld)]).any (fun s =>
      s.store.isSome && s.vault.masterKey = "master" && s.file.isNone) = true := by
    decide +kernel
  obtain ⟨s, hexec, hfacts⟩ := (Option.any_eq_true _ _).mp hrun
  rw [Bool.and_eq_true, Bool.and_eq_true, decide_eq_true_eq, Option.isNone_iff_eq_none] at hfacts
  refine ⟨s, .of_exec _ hexec fun _ _ _ => trivial, hfacts.1.1, hfacts.1.2, ?_⟩
  rw [hfacts.2]
  exact ⟨_, rfl⟩

end Jaiba.Connections
