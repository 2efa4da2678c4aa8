import Mathlib.Data.List.Sort
import Jaiba.Error
import Jaiba.Lib.Except
import Jaiba.Repository.Database

/-!
# Reading the dead letters and the provenance (`repository.rs`)
-/

namespace Jaiba.Repository
open Jaiba.Lib

structure DeadLetterEntry where
  queueId : String
  packetId : String
  flowId : String
  processorId : String
  relationship : String
  attempt : ℕ
  error : Option String
  contentSize : ℕ
  createdAt : ℤ
  failedAt : ℤ
  deriving Repr, DecidableEq

/-- `attempt` is an `i64` in the table and a `u32` here. -/
def Row.deadLetter (r : Row) : Except FlowError DeadLetterEntry :=
  match r.completedAt with
  | none => .error (.database "unexpected null; try decoding as an `Option`")
  | some failedAt => .ok ⟨r.queueId, r.packetId, r.flowId, r.processorId, r.relationship,
      r.attempt % 2 ^ 32, r.error, r.contentSize, r.createdAt, failedAt⟩

/-- `ORDER BY completed_at DESC, queue_id`; `NULL` is the least value. -/
def deadLetterBefore (a b : Row) : Bool :=
  match a.completedAt, b.completedAt with
  | some x, some y => y < x || (x = y && a.queueId ≤ b.queueId)
  | some _, none => true
  | none, some _ => false
  | none, none => a.queueId ≤ b.queueId

/-- `limit.clamp(1, most)` -/
def clampLimit (limit most : ℕ) : ℕ := max 1 (min limit most)

/-- What `requeue_dead_letter` makes of a row. -/
def Row.requeued (r : Row) : Row :=
  { r with status := .pending, attempt := 0, error := none, claimedAt := none, completedAt := none }

namespace Database

def deadLetters (db : Database) (flowId : String) (limit : ℕ) : Except FlowError (List DeadLetterEntry) :=
  (((db.queue.rows.filter fun r => r.flowId = flowId && r.status = .deadLetter).insertionSort
    fun a b => deadLetterBefore a b).take (clampLimit limit 1000)).mapM Row.deadLetter

/-- `ORDER BY created_at, id` -/
def olderProvenance (a b : ℕ × Provenance) : Bool :=
  a.2.createdAt < b.2.createdAt || (a.2.createdAt = b.2.createdAt && a.1 ≤ b.1)

def provenanceForPacket (db : Database) (flowId packetId : String) (limit : ℕ) : List (ℕ × Provenance) :=
  ((db.provenance.entries.filter fun e => e.2.flowId = flowId && e.2.packetId = packetId).insertionSort
    fun a b => olderProvenance a b).take (clampLimit limit 5000)

def recentProvenance (db : Database) (flowId : String) (limit : ℕ) : List (ℕ × Provenance) :=
  ((db.provenance.entries.filter fun e => e.2.flowId = flowId).insertionSort
    fun a b => olderProvenance b a).take (clampLimit limit 5000)

variable {db : Database} {flowId packetId : String} {limit : ℕ}

theorem deadLetters_flowId {entries : List DeadLetterEntry}
    (h : db.deadLetters flowId limit = .ok entries) : ∀ e ∈ entries, e.flowId = flowId := by
  intro e he
  obtain ⟨r, hr, hentry⟩ := exists_of_mapM_ok h he
  have hmem := (List.mem_insertionSort _).mp (List.mem_of_mem_take hr)
  have hboth := (List.mem_filter.mp hmem).2
  rw [Bool.and_eq_true, decide_eq_true_eq] at hboth
  rw [← hboth.1]
  unfold Row.deadLetter at hentry
  split at hentry <;> cases hentry
  rfl

theorem provenanceForPacket_flowId : ∀ e ∈ db.provenanceForPacket flowId packetId limit, e.2.flowId = flowId := by
  intro e he
  have hmem := (List.mem_insertionSort _).mp (List.mem_of_mem_take he)
  have hboth := (List.mem_filter.mp hmem).2
  rw [Bool.and_eq_true, decide_eq_true_eq] at hboth
  exact hboth.1

theorem recentProvenance_flowId : ∀ e ∈ db.recentProvenance flowId limit, e.2.flowId = flowId := by
  intro e he
  have hmem := (List.mem_insertionSort _).mp (List.mem_of_mem_take he)
  exact of_decide_eq_true (List.mem_filter.mp hmem).2

/-- A replay puts back the dead letter it names and nothing else. -/
theorem requeueDeadLetter_find? (db : Database) (now : ℤ) (queueId q : String) :
    (db.requeueDeadLetter now queueId).2.queue.find? q =
      if q = queueId ∧ db.statusOf queueId = some .deadLetter then (db.queue.find? q).map Row.requeued
      else db.queue.find? q := by
  by_cases h : db.statusOf queueId = some .deadLetter
  · obtain ⟨-, hfind, -⟩ := guardedUpdate_hit db now queueId .deadLetter Row.requeued (fun _ => rfl)
      .requeued (.object [("attempt", .number (.posInt 0)), ("status", .string "PENDING")]) h
    simp only [h, and_true]
    exact hfind q
  · rw [if_neg fun hboth => h hboth.2]
    exact congrArg (fun r => r.2.queue.find? q) (guardedUpdate_miss db now queueId .deadLetter Row.requeued
      (fun _ => rfl) .requeued (.object [("attempt", .number (.posInt 0)), ("status", .string "PENDING")]) h)

end Database

end Jaiba.Repository
