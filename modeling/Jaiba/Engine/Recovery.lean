import Jaiba.Engine.State

/-!
# Start of a run (`engine/executor/mod.rs`, `engine/memory.rs`)

`run_inner` up to its loop: abandoned rows become pending again, the pending
rows are materialised and their memory is reserved.
-/

namespace Jaiba.Engine
open Jaiba.Control Jaiba.Repository

/-- `UNIT_BYTES`. -/
def unitBytes : ℕ := 64 * 1024

/-- The packet budget: free permits of the flow and of the process, in units. -/
structure MemoryLimiter where
  budgetBytes : ℕ
  totalUnits : ℕ
  available : ℕ
  shared : ℕ
  deriving Repr, DecidableEq

namespace MemoryLimiter

/-- `from_budget` on a process pool with `shared` free permits. -/
def fromBudget (budgetBytes shared : ℕ) : MemoryLimiter :=
  let totalUnits := min (max (budgetBytes / unitBytes) 1) (2 ^ 32 - 1)
  ⟨budgetBytes, totalUnits, totalUnits, shared⟩

/-- `bytes.max(1).div_ceil(UNIT_BYTES)`. -/
def units (bytes : ℕ) : ℕ := (max bytes 1 + unitBytes - 1) / unitBytes

def tryReserve (m : MemoryLimiter) (bytes : ℕ) : Except FlowError MemoryLimiter :=
  if m.budgetBytes < max bytes 1 || m.totalUnits < units bytes then
    .error (.packetTooLarge (max bytes 1) m.budgetBytes)
  else if m.available < units bytes || m.shared < units bytes then
    .error (.memoryCapacity (max bytes 1))
  else
    .ok { m with available := m.available - units bytes, shared := m.shared - units bytes }

end MemoryLimiter

/-- What a run finds when it starts. -/
structure Launch where
  db : Database
  files : Files
  budgetBytes : ℕ
  /-- free units of the process budget -/
  shared : ℕ
  now : ℤ
  /-- ids of the packets of the seeds -/
  packetId : ℕ → String

/-- The loop over the pending rows, from the row with position `serial`. -/
def reserveStored (codec : Codec) (memory : MemoryLimiter) (serial : ℕ) :
    List StoredWork → Except FlowError (List WorkItem)
  | [] => .ok []
  | stored :: rest =>
    match memory.tryReserve (stored.packet.estimatedSize codec) with
    | .error e => .error e
    | .ok memory =>
      match reserveStored codec memory (serial + 1) rest with
      | .error e => .error e
      | .ok items =>
        .ok (⟨stored.processorId, stored.packet, none, some stored.queueId, serial⟩ :: items)

/-- The recovered work; `recover_abandoned` is committed before the rest can fail. -/
def recover (σ : Setup) (l : Launch) : Except FlowError (List WorkItem) × Database :=
  let db := (l.db.recoverAbandoned l.now σ.config.id σ.config.engine.abandonedAfterSeconds).2
  match pending σ.codec l.files db σ.config.id with
  | .error e => (.error e, db)
  | .ok stored =>
    (reserveStored σ.codec (.fromBudget l.budgetBytes l.shared) 0 stored, db)

/-- The state in which the loop starts. -/
def start (σ : Setup) (l : Launch) : Except FlowError State :=
  if σ.config.engine.repositoryEnabled then
    match recover σ l with
    | (.error e, _) => .error e
    | (.ok recovered, db) => .ok (.init σ l.packetId recovered (some db))
  else .ok (.init σ l.packetId [] none)

/-! ### What is recovered -/

/-- The item of a stored row. -/
def ItemOf (stored : StoredWork) (w : WorkItem) : Prop :=
  w.processorId = stored.processorId ∧ w.packet = stored.packet ∧ w.connection = none ∧
    w.queueId = some stored.queueId

theorem reserveStored_ok {codec : Codec} {memory : MemoryLimiter} {serial : ℕ}
    {stored : List StoredWork} {items : List WorkItem}
    (h : reserveStored codec memory serial stored = .ok items) :
    List.Forall₂ ItemOf stored items := by
  induction stored generalizing memory serial items with
  | nil =>
    cases h
    exact .nil
  | cons stored rest ih =>
    unfold reserveStored at h
    split at h
    · cases h
    · split at h
      · cases h
      next hrest =>
        cases h
        exact .cons ⟨rfl, rfl, rfl, rfl⟩ (ih hrest)

/-- Every recovered item is the packet of one pending row, and every pending row
of the flow is recovered. -/
theorem recover_ok {σ : Setup} {l : Launch} {items : List WorkItem} {db : Database}
    (h : recover σ l = (.ok items, db)) :
    List.Forall₂ (fun row w => ∃ stored, materialize σ.codec l.files row = .ok stored ∧
      ItemOf stored w) (pendingRows db σ.config.id) items := by
  unfold recover at h
  simp only at h
  split at h
  · cases h
  next stored hstored =>
    obtain ⟨hitems, rfl⟩ := Prod.mk.inj h
    have hrows := pending_ok σ.codec hstored
    have hres := reserveStored_ok hitems
    generalize pendingRows _ σ.config.id = rows at hrows ⊢
    clear hstored hitems h
    induction hrows generalizing items with
    | nil =>
      cases hres
      exact .nil
    | cons hrow _ ih =>
      cases hres with
      | cons hitem hrest => exact .cons ⟨_, hrow, hitem⟩ (ih hrest)

/-! ### Small backlogs -/

def exampleRow (queueId processorId : String) : Database.NewRow :=
  newRow exampleCodec queueId "orders" processorId "success" examplePacket

/-- The repository after rows were enqueued, and the content file of the packet. -/
def exampleLaunch (rows : List Database.NewRow) : Launch where
  db := rows.foldl (fun db row => (db.insertPending 10 row).getD db) .empty
  files := fun key =>
    if key = exampleCodec.hexDigest [91, 93] then some [91, 93] else none
  budgetBytes := 1024 * 1024
  shared := 16
  now := 20
  packetId := fun _ => examplePacket.id

end Jaiba.Engine
