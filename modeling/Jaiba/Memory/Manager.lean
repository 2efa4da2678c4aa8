import Mathlib.Logic.Function.Basic
import Jaiba.Memory.Deferred
import Jaiba.Memory.Hot

/-!
# Memory manager (`jaiba-memory/src/manager.rs`)

`MemoryManager` over Hot, the deferred queue, the persistence sink and the three
lower tiers. No rebuild hook is configured. A call into a backend or the sink
may fail; a failed call changes nothing.
-/

namespace Jaiba.Memory
open Jaiba.Lib

inductive Tier where
  | warm | cold | frozen
  deriving Repr, DecidableEq

/-- What a lower tier keeps under a key (`WarmEntry`, `ColdEntry`, `FrozenEntry`). -/
structure TierEntry where
  className : String
  value : Value

/-- One call into a backend or the sink. -/
inductive Call where
  | persist (key : String)
  | put (tier : Tier) (key : String)
  | get (tier : Tier) (key : String)
  | remove (tier : Tier) (key : String)
  deriving Repr, DecidableEq

/-- What one operation is given from outside: the order in which the Hot map
iterates and the calls that fail, with their errors. -/
structure Platform where
  order : IterOrder
  fault : Call → Option MemoryError

/-- No call fails. -/
def Platform.reliable (order : IterOrder) : Platform := ⟨order, fun _ => none⟩

def Backends.enabled (b : Backends) : Tier → Bool
  | .warm => b.warm
  | .cold => b.cold
  | .frozen => b.frozen

structure Manager where
  hot : HotStore
  tiers : Tier → Dict String TierEntry
  /-- the records the sink has accepted, `none` when there is no sink -/
  sink : Option (List PersistRecord)
  deferred : DeferredQueue

/-- The outcome of a `&mut self` method: its result and the manager it leaves. -/
abbrev Outcome (α : Type) := Except MemoryError α × Manager

namespace Manager

variable (policy : MemoryPolicy) (platform : Platform)

/-- `open` and `open_with_sink` on empty backends. -/
def create (sink : Bool) : Except MemoryError Manager :=
  if !sink && policy.requiresPersistSink then .error .missingImmediateSink
  else .ok
    { hot := ⟨Dict.empty, policy.maxEntries, policy.maxHotBytes⟩
      tiers := fun _ => Dict.empty
      sink := if sink then some [] else none
      deferred := ⟨OrderedDict.empty, policy.maxPendingDeferred⟩ }

/-- The Cold store does not move a key to another class. -/
def classClash (tier : Tier) (existing : Option TierEntry) (key : String) (entry : TierEntry) :
    Option MemoryError :=
  match tier, existing with
  | .cold, some old =>
    if old.className ≠ entry.className then
      some (.cold ("la clave '" ++ key ++ "' ya pertenece a la clase '" ++ old.className ++
        "' y no puede moverse a '" ++ entry.className ++ "'"))
    else none
  | _, _ => none

/-- `put` of a tier: nothing is stored without a backend. -/
def tierPut (s : Manager) (tier : Tier) (key : String) (entry : TierEntry) : Outcome Unit :=
  if !policy.backends.enabled tier then (.ok (), s)
  else
    match classClash tier (Dict.get? (s.tiers tier) key) key entry, platform.fault (.put tier key) with
    | some e, _ => (.error e, s)
    | none, some e => (.error e, s)
    | none, none =>
      (.ok (), { s with tiers := Function.update s.tiers tier (Dict.insert (s.tiers tier) key entry) })

/-- `get` of a tier as the manager reads it: an error is a miss. -/
def tierGet (s : Manager) (tier : Tier) (key : String) : Option TierEntry :=
  match platform.fault (.get tier key) with
  | some _ => none
  | none => Dict.get? (s.tiers tier) key

/-- `remove` of a tier with `unwrap_or(false)`. -/
def tierRemove (s : Manager) (tier : Tier) (key : String) : Bool × Manager :=
  match platform.fault (.remove tier key) with
  | some _ => (false, s)
  | none =>
    ((Dict.get? (s.tiers tier) key).isSome,
      { s with tiers := Function.update s.tiers tier (Dict.erase (s.tiers tier) key) })

def demoteOrDrop (s : Manager) (key : String) (entry : HotEntry) : Outcome Unit :=
  match policy.class? entry.className with
  | .error _ => (.ok (), s)
  | .ok c =>
    if c.archivesFrozen then
      s.tierPut policy platform .frozen key ⟨entry.className, entry.value⟩
    else if c.archivesCold then
      s.tierPut policy platform .cold key ⟨entry.className, entry.value⟩
    else if !c.mirrorsWarm then (.ok (), s)
    else s.tierPut policy platform .warm key ⟨entry.className, entry.value⟩

/-- The loop over the victims of an admission: the first error ends it. -/
def demoteVictims (s : Manager) : List HotItem → Outcome Unit
  | [] => (.ok (), s)
  | x :: victims =>
    match s.demoteOrDrop policy platform x.1 x.2 with
    | (.error e, t) => (.error e, t)
    | (.ok _, t) => demoteVictims t victims

/-- `apply_demotions`: the entry that failed and those after it go back to Hot. -/
def applyDemotions (s : Manager) : List HotItem → Outcome Unit
  | [] => (.ok (), s)
  | x :: victims =>
    match s.demoteOrDrop policy platform x.1 x.2 with
    | (.error e, t) =>
      (.error e, { t with hot := (x :: victims).foldl (fun hot y => hot.restore y.1 y.2) t.hot })
    | (.ok _, t) => applyDemotions t victims

def hotUpsert (s : Manager) (key : String) (value : Value) (c : ClassPolicy) (now : ℕ) :
    Outcome Unit :=
  match s.hot.prepareUpsert platform.order key value c now with
  | .error e => (.error e, s)
  | .ok prepared =>
    match s.demoteVictims policy platform prepared.victims with
    | (.error e, t) => (.error e, t)
    | (.ok _, t) => (.ok (), { t with hot := t.hot.commitUpsert prepared })

def demoteIdleAt (s : Manager) (now limit : ℕ) : Outcome ℕ :=
  let (victims, hot) := s.hot.reclaimIdle platform.order now limit
  match { s with hot := hot }.applyDemotions policy platform victims with
  | (.error e, t) => (.error e, t)
  | (.ok _, t) => (.ok victims.length, t)

def persistNow (s : Manager) (record : PersistRecord) : Outcome Unit :=
  match s.sink with
  | none => (.error .missingImmediateSink, s)
  | some accepted =>
    match platform.fault (.persist record.key) with
    | some e => (.error e, s)
    | none => (.ok (), { s with sink := some (accepted ++ [record]) })

/-- The loop of `flush_deferred_at`: what follows a failure is put back. -/
def persistBatch (s : Manager) (accepted : List PersistRecord) (now written : ℕ) :
    List PersistRecord → Outcome ℕ
  | [] => (.ok written, { s with sink := some accepted })
  | record :: records =>
    match platform.fault (.persist record.key) with
    | some e =>
      (.error e, { s with
        sink := some accepted
        deferred := s.deferred.requeueFailed (record :: records) now })
    | none => persistBatch s (accepted ++ [record]) now (written + 1) records

def flushDeferredAt (s : Manager) (now : ℕ) (force : Bool) : Outcome ℕ :=
  let (batch, deferred) := s.deferred.takeReady now force
  if batch.isEmpty then (.ok 0, { s with deferred := deferred })
  else
    match s.sink with
    | none => (.error .missingImmediateSink, { s with deferred := deferred })
    | some accepted =>
      persistBatch platform { s with deferred := deferred } accepted now 0 batch

/-- The part of `upsert_at` up to and including the commit to Hot. -/
def enterHot (s : Manager) (key : String) (value : Value) (c : ClassPolicy) (now : ℕ) :
    Outcome Unit :=
  match c.policy with
  | .immediate | .persistent =>
    match s.hot.prepareUpsert platform.order key value c now with
    | .error e => (.error e, s)
    | .ok prepared =>
      match s.demoteVictims policy platform prepared.victims with
      | (.error e, t) => (.error e, t)
      | (.ok _, t) =>
        match t.persistNow platform ⟨key, c.name, value, c.policy, c.priority⟩ with
        | (.error e, u) => (.error e, u)
        | (.ok _, u) => (.ok (), { u with hot := u.hot.commitUpsert prepared })
  | .deferred | .volatile | .cache => s.hotUpsert policy platform key value c now

/-- The part of `upsert_at` after the commit to Hot and before the archive. -/
def settle (s : Manager) (key : String) (value : Value) (c : ClassPolicy) (now : ℕ) :
    Outcome Unit :=
  match c.policy with
  | .immediate | .persistent => (.ok (), s)
  | .deferred =>
    -- a deferred class always has `flush`
    let (force, deferred) := s.deferred.enqueue ⟨key, c.name, value, c.policy, c.priority⟩
      (c.flush.getD 0) now
    match { s with deferred := deferred }.flushDeferredAt platform now force with
    | (.error e, t) => (.error e, t)
    | (.ok _, t) => (.ok (), t)
  | .volatile =>
    match s.flushDeferredAt platform now false with
    | (.error e, t) => (.error e, t)
    | (.ok _, t) => (.ok (), t)
  | .cache =>
    match (if c.mirrorsWarm then s.tierPut policy platform .warm key ⟨c.name, value⟩
      else (.ok (), s)) with
    | (.error e, t) => (.error e, t)
    | (.ok _, t) =>
      match t.flushDeferredAt platform now false with
      | (.error e, u) => (.error e, u)
      | (.ok _, u) => (.ok (), u)

/-- The last step of `upsert_at`: classes of temperature frozen are archived. -/
def archive (s : Manager) (key : String) (value : Value) (c : ClassPolicy) : Outcome Unit :=
  if c.archivesFrozen then s.tierPut policy platform .frozen key ⟨c.name, value⟩
  else (.ok (), s)

/-- What `upsert_at` does once the write is in Hot. -/
def publish (s : Manager) (key : String) (value : Value) (c : ClassPolicy) (now : ℕ) :
    Outcome Unit :=
  match s.settle policy platform key value c now with
  | (.error e, t) => (.error e, t)
  | (.ok _, t) => t.archive policy platform key value c

def upsertAt (s : Manager) (key : String) (value : Value) (className : String) (now : ℕ) :
    Outcome Unit :=
  match policy.class? className with
  | .error e => (.error e, s)
  | .ok c =>
    match s.enterHot policy platform key value c now with
    | (.error e, t) => (.error e, t)
    | (.ok _, t) => t.publish policy platform key value c now

/-- Bring an entry found in a lower tier back to Hot, if Hot admits it. -/
def promote (s : Manager) (key : String) (entry : TierEntry) (now : ℕ) : Manager :=
  match policy.class? entry.className with
  | .error _ => s
  | .ok c => (s.hotUpsert policy platform key entry.value c now).2

/-- `promote_from_warm`, `promote_from_cold`, `promote_from_frozen`. -/
def promoteFrom (s : Manager) (tier : Tier) (key : String) (now : ℕ) : Option Value × Manager :=
  match s.tierGet platform tier key with
  | none => (none, s)
  | some entry => (some entry.value, s.promote policy platform key entry now)

/-- Hot, then Warm, Cold and Frozen; what is found is promoted. -/
def getAt (s : Manager) (key : String) (now : ℕ) : Option Value × Manager :=
  let flushed := (s.flushDeferredAt platform now false).2
  match flushed.hot.get key now with
  | (some value, hot) => (some value, { flushed with hot := hot })
  | (none, hot) =>
    match { flushed with hot := hot }.promoteFrom policy platform .warm key now with
    | (some value, t) => (some value, t)
    | (none, t) =>
      match t.promoteFrom policy platform .cold key now with
      | (some value, u) => (some value, u)
      | (none, u) => u.promoteFrom policy platform .frozen key now

def remove (s : Manager) (key : String) : Bool × Manager :=
  let hot := s.hot.remove key
  let warm := { s with hot := hot.2 }.tierRemove platform .warm key
  let cold := warm.2.tierRemove platform .cold key
  let frozen := cold.2.tierRemove platform .frozen key
  (hot.1 || warm.1 || cold.1 || frozen.1, frozen.2)

def notifyPressure (s : Manager) (now : ℕ) : Outcome Bool :=
  match s.flushDeferredAt platform now true with
  | (.error e, t) => (.error e, t)
  | (.ok _, t) =>
    match t.hot.reclaimOne platform.order now with
    | (none, hot) => (.ok false, { t with hot := hot })
    | (some (key, entry), hot) =>
      match { t with hot := hot }.demoteOrDrop policy platform key entry with
      | (.error e, u) => (.error e, { u with hot := u.hot.restore key entry })
      | (.ok _, u) => (.ok true, u)

/-- Periodic maintenance; up to 64 idle entries are demoted, failures apart. -/
def poll (s : Manager) (now : ℕ) : Outcome ℕ :=
  match s.flushDeferredAt platform now false with
  | (.error e, t) => (.error e, t)
  | (.ok written, t) => (.ok written, (t.demoteIdleAt policy platform now 64).2)

end Manager

end Jaiba.Memory
