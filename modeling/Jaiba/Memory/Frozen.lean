import Jaiba.JsonText
import Jaiba.Lib.Machine
import Jaiba.Lib.Volume
import Jaiba.Memory.Manager

/-!
# Frozen store (`jaiba-memory/src/frozen.rs`)

`FileFrozenStore` keeps one file a key in a directory that the processes of a
host may share. A call goes from one call of the file system to the next, and
any of these may fail; a process may be killed between two of them, and the
host may lose its power.
-/

namespace Jaiba.Memory.Frozen
open Jaiba.Lib

abbrev FrozenEntry := TierEntry

structure FrozenFile where
  key : String
  className : String
  value : Value

def FrozenFile.entry (file : FrozenFile) : FrozenEntry := ⟨file.className, file.value⟩

/-- `serde_json` and `sha2`. -/
structure Codec where
  toText : FrozenFile → Except String String
  fromText : String → Except String FrozenFile
  digest : Bytes → Bytes
  digest_length : ∀ bytes, (digest bytes).length = 32

def Codec.RoundTrips (codec : Codec) : Prop :=
  ∀ file text, codec.toText file = .ok text → codec.fromText text = .ok file

def hexChars (bytes : Bytes) : List Char :=
  bytes.flatMap fun b => [Json.hexDigit (b.toNat / 16), Json.hexDigit (b.toNat % 16)]

def hex (codec : Codec) (key : String) : String := String.ofList (hexChars (codec.digest (utf8 key)))

/-- The name that `file_path` puts below the root. -/
def fileName (codec : Codec) (key : String) : String := hex codec key ++ ".json"

/-- `with_extension` replaces `json`. -/
def tempName (codec : Codec) (pid : ℕ) (key : String) : String :=
  hex codec key ++ (".json.tmp-" ++ toString pid)

/-- `path.extension() == Some("json")`. -/
def isJsonFile (name : String) : Bool := decide (name ≠ ".json") && ".json".toList.isSuffixOf name.toList

def countJsonFiles (v : Volume String) : ℕ := v.names.rows.countP fun e => isJsonFile e.1

def notFound : String := "No such file or directory (os error 2)"
def invalidUtf8 : String := "stream did not contain valid UTF-8"

/-- How a call of the file system ends. A `write` that fails may leave a file
with some bytes. -/
inductive Io where
  | ok
  | error (text : String) (left : Option Bytes)

inductive Answer where
  | stored
  | removed (present : Bool)
  | found (entry : Option FrozenEntry)
  | failed (error : MemoryError)

/-- What `put` has computed before it writes. -/
structure Draft where
  file : FrozenFile
  text : String
  existed : Bool

inductive Request where
  | put (key : String) (entry : FrozenEntry)
  | remove (key : String)
  | get (key : String)

/-- A stage names the call of the file system that is made next. -/
inductive Stage where
  | idle
  | storing (key : String) (entry : FrozenEntry)
  | writing (draft : Draft)
  | opening (draft : Draft)
  | syncing (draft : Draft)
  | replacing (draft : Draft)
  | removing (key : String)
  | unlinking (key : String)
  | fetching (key : String)
  | reading (key : String)
  | returned (answer : Answer)

def Request.stage : Request → Stage
  | .put key entry => .storing key entry
  | .remove key => .removing key
  | .get key => .fetching key

structure FileFrozenStore where
  objects : ℕ
  stage : Stage

/-- The directory and the stores of the processes, by their identifiers. -/
structure State where
  volume : Volume String
  stores : Dict ℕ FileFrozenStore

def State.start : State := ⟨Volume.empty, Dict.empty⟩

section
variable (codec : Codec) (root : String)

def path (name : String) : String := root ++ "/" ++ name

def frozenError (action name error : String) : Answer :=
  .failed (.frozen (action ++ " " ++ path root name ++ ": " ++ error))

/-- `path.exists()`: an error is a miss. -/
def pathExists (v : Volume String) (name : String) : Io → Bool
  | .ok => (v.inode? name).isSome
  | .error _ _ => false

def decodeFile (key : String) (bytes : Bytes) : Answer :=
  match ofUtf8? bytes with
  | none => frozenError root "lectura" (fileName codec key) invalidUtf8
  | some text =>
    match codec.fromText text with
    | .error e => frozenError root "json" (fileName codec key) e
    | .ok file => .found (some file.entry)

/-- The next call of the file system in a call of the store of process `pid`. -/
def FileFrozenStore.advance (v : Volume String) (pid : ℕ) (s : FileFrozenStore) (io : Io) :
    Option (Volume String × FileFrozenStore) :=
  match s.stage with
  | .idle | .returned _ => none
  | .storing key entry =>
    let existed := pathExists v (fileName codec key) io
    let file : FrozenFile := ⟨key, entry.className, entry.value⟩
    match codec.toText file with
    | .error e => some (v, { s with stage := .returned (.failed (.frozen ("serialize: " ++ e))) })
    | .ok text => some (v, { s with stage := .writing ⟨file, text, existed⟩ })
  | .writing draft =>
    let temp := tempName codec pid draft.file.key
    match io with
    | .ok => some (v.write temp (utf8 draft.text), { s with stage := .opening draft })
    | .error e left =>
      some (match left with
        | none => v
        | some bytes => v.write temp bytes,
        { s with stage := .returned (frozenError root "escritura" (fileName codec draft.file.key) e) })
  | .opening draft =>
    let temp := tempName codec pid draft.file.key
    match io with
    | .error e _ => some (v, { s with stage := .returned (frozenError root "abrir temporal" temp e) })
    | .ok =>
      if (v.inode? temp).isSome then some (v, { s with stage := .syncing draft })
      else some (v, { s with stage := .returned (frozenError root "abrir temporal" temp notFound) })
  | .syncing draft =>
    let temp := tempName codec pid draft.file.key
    match io with
    | .ok => some (v.sync temp, { s with stage := .replacing draft })
    | .error e _ => some (v, { s with stage := .returned (frozenError root "fsync" temp e) })
  | .replacing draft =>
    let temp := tempName codec pid draft.file.key
    let name := fileName codec draft.file.key
    match io with
    | .error e _ => some (v, { s with stage := .returned (frozenError root "renombrar" name e) })
    | .ok =>
      match v.rename temp name with
      | none => some (v, { s with stage := .returned (frozenError root "renombrar" name notFound) })
      | some w =>
        some (w, ⟨if draft.existed then s.objects else s.objects + 1, .returned .stored⟩)
  | .removing key =>
    if pathExists v (fileName codec key) io then some (v, { s with stage := .unlinking key })
    else some (v, { s with stage := .returned (.removed false) })
  | .unlinking key =>
    let name := fileName codec key
    match io with
    | .error e _ => some (v, { s with stage := .returned (frozenError root "borrar" name e) })
    | .ok =>
      match v.unlink name with
      | none => some (v, { s with stage := .returned (frozenError root "borrar" name notFound) })
      | some w => some (w, ⟨s.objects - 1, .returned (.removed true)⟩)
  | .fetching key =>
    if pathExists v (fileName codec key) io then some (v, { s with stage := .reading key })
    else some (v, { s with stage := .returned (.found none) })
  | .reading key =>
    let name := fileName codec key
    match io with
    | .error e _ => some (v, { s with stage := .returned (frozenError root "lectura" name e) })
    | .ok =>
      match v.inode? name with
      | none => some (v, { s with stage := .returned (frozenError root "lectura" name notFound) })
      | some f => some (v, { s with stage := .returned (decodeFile codec root key f.bytes) })

inductive Action where
  /-- `new` in a process that has no store; where it fails it leaves nothing. -/
  | launch (pid : ℕ)
  | call (pid : ℕ) (request : Request)
  | advance (pid : ℕ) (io : Io)
  | kill (pid : ℕ)
  /-- Every process ends, and the disk is as it was `back` changes of the directory ago. -/
  | losePower (back : ℕ) (remains : ℕ → Bytes)

def step (s : State) : Action → Option State
  | .launch pid =>
    match Dict.get? s.stores pid with
    | some _ => none
    | none => some { s with stores := Dict.insert s.stores pid ⟨countJsonFiles s.volume, .idle⟩ }
  | .call pid request =>
    match Dict.get? s.stores pid with
    | some store =>
      match store.stage with
      | .idle | .returned _ =>
        some { s with stores := Dict.insert s.stores pid { store with stage := request.stage } }
      | _ => none
    | none => none
  | .advance pid io => do
    let store ← Dict.get? s.stores pid
    let (volume, store) ← store.advance codec root s.volume pid io
    return ⟨volume, Dict.insert s.stores pid store⟩
  | .kill pid => (Dict.get? s.stores pid).map fun _ => { s with stores := Dict.erase s.stores pid }
  | .losePower back remains => (s.volume.losePower back remains).map fun v => ⟨v, Dict.empty⟩

def host : Machine State Action := ⟨step codec root⟩

end

end Jaiba.Memory.Frozen
