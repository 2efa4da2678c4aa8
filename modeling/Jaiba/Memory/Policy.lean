import Jaiba.Json
import Jaiba.Lib.Dict

/-!
# Memory policies (`jaiba-memory/src/policy.rs`, `error.rs`)

Each class combines a `Policy` (durability), a `Temperature` (where it goes
when it leaves Hot) and a `Priority` (the order of eviction). A `MemoryPolicy`
carries the checks `from_file` makes on its classes. Durations and instants are
numbers of nanoseconds.
-/

namespace Jaiba.Memory
open Jaiba.Lib

abbrev Value := Json

/-- `serde_json::to_vec(&value).len()`. -/
def jsonLen (v : Value) : ℕ := v.render.utf8ByteSize

inductive Policy where
  | volatile | cache | deferred | immediate | persistent
  deriving Repr, DecidableEq

def Policy.asStr : Policy → String
  | .volatile => "volatile"
  | .cache => "cache"
  | .deferred => "deferred"
  | .immediate => "immediate"
  | .persistent => "persistent"

def Policy.requiresPersistSink : Policy → Bool
  | .immediate | .persistent | .deferred => true
  | _ => false

inductive Temperature where
  | hot | warm | cold | frozen
  deriving Repr, DecidableEq

inductive Priority where
  | low | normal | high | critical
  deriving Repr, DecidableEq

def Priority.rank : Priority → ℕ
  | .low => 0
  | .normal => 1
  | .high => 2
  | .critical => 3

inductive MemoryError where
  | configuration (message : String)
  | unknownClass (name : String)
  | persistence (message : String)
  | warm (message : String)
  | cold (message : String)
  | frozen (message : String)
  | criticalCapacity (maxEntries : ℕ)
  | missingImmediateSink
  | hotByteCapacity (requestedBytes maxBytes : ℕ)
  deriving Repr, DecidableEq

/-- `Display`. -/
def MemoryError.text : MemoryError → String
  | .configuration m => "configuración de memoria: " ++ m
  | .unknownClass name => "clase de memoria desconocida: " ++ name
  | .persistence m => "persistencia: " ++ m
  | .warm m => "warm store: " ++ m
  | .cold m => "cold store: " ++ m
  | .frozen m => "frozen store: " ++ m
  | .criticalCapacity n =>
    "hot store lleno (" ++ toString n ++ "); todas las entradas son critical"
  | .missingImmediateSink =>
    "la política requiere sink de persistencia (immediate/persistent/deferred)"
  | .hotByteCapacity requested max =>
    "hot byte capacity exceeded: " ++ toString requested ++ " > " ++ toString max

/-- Effective rules of a class, with the defaults applied. -/
structure ClassPolicy where
  name : String
  policy : Policy
  temperature : Temperature
  ttl : Option ℕ
  flush : Option ℕ
  priority : Priority
  /-- idle time before maintenance demotes from Hot -/
  demoteAfter : Option ℕ
  deriving Repr, DecidableEq

/-- The tiers whose backend is not `none`. -/
structure Backends where
  warm : Bool
  cold : Bool
  frozen : Bool
  deriving Repr, DecidableEq

/-- The checks of `from_file` on one class. -/
structure ClassPolicy.Accepted (backends : Backends) (c : ClassPolicy) : Prop where
  flush : c.flush.isSome ↔ c.policy = .deferred
  ttl : c.policy = .volatile ∨ c.policy = .cache → c.ttl.isSome
  frozen : c.temperature = .frozen → backends.frozen
  cold : c.policy = .cache → c.temperature = .cold → backends.cold
  demoteAfter : c.demoteAfter.isSome → c.policy = .cache ∧ c.temperature ≠ .hot
  /-- `parse_duration` refuses zero -/
  positive : c.ttl ≠ some 0 ∧ c.flush ≠ some 0 ∧ c.demoteAfter ≠ some 0

/-- A policy as `from_file` returns it. -/
structure MemoryPolicy where
  maxEntries : ℕ
  maxHotBytes : ℕ
  maxPendingDeferred : ℕ
  backends : Backends
  classes : Table String ClassPolicy ClassPolicy.name
  accepted : ∀ c ∈ classes.rows, c.Accepted backends
  maxEntries_pos : 0 < maxEntries
  maxHotBytes_pos : 0 < maxHotBytes
  maxPendingDeferred_pos : 0 < maxPendingDeferred

namespace MemoryPolicy

/-- The declared class; `UnknownClass` otherwise. -/
def class? (p : MemoryPolicy) (name : String) : Except MemoryError ClassPolicy :=
  match p.classes.find? name with
  | some c => .ok c
  | none => .error (.unknownClass name)

def requiresPersistSink (p : MemoryPolicy) : Bool :=
  p.classes.rows.any fun c => c.policy.requiresPersistSink

variable {p : MemoryPolicy} {name : String} {c : ClassPolicy}

theorem class?_ok_iff : p.class? name = .ok c ↔ p.classes.find? name = some c := by
  unfold class?
  cases p.classes.find? name <;> simp

theorem class?_name (h : p.class? name = .ok c) : c.name = name :=
  Table.find?_key (class?_ok_iff.mp h)

theorem class?_accepted (h : p.class? name = .ok c) : c.Accepted p.backends :=
  p.accepted c (Table.find?_mem (class?_ok_iff.mp h))

end MemoryPolicy

/-- Cache classes of temperature warm are mirrored in Warm and demoted to it. -/
def ClassPolicy.mirrorsWarm (c : ClassPolicy) : Bool := c.policy = .cache && c.temperature = .warm

def ClassPolicy.archivesFrozen (c : ClassPolicy) : Bool := c.temperature = .frozen

def ClassPolicy.archivesCold (c : ClassPolicy) : Bool :=
  c.policy = .cache && c.temperature = .cold

end Jaiba.Memory
