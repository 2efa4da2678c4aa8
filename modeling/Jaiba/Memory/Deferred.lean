import Jaiba.Memory.Policy

/-!
# Deferred queue (`jaiba-memory/src/deferred.rs`, `sink.rs`)

Bounded queue of deferred persistence: one record a key, flushed in the order
of the keys.
-/

namespace Jaiba.Memory
open Jaiba.Lib

/-- Record sent to persistence. -/
structure PersistRecord where
  key : String
  className : String
  value : Value
  policy : Policy
  priority : Priority

structure DeferredItem where
  record : PersistRecord
  enqueuedAt : ℕ
  flushAfter : ℕ

structure DeferredQueue where
  items : OrderedDict String DeferredItem
  maxPending : ℕ

namespace DeferredQueue

/-- Enqueue or replace; true when the queue is at its cap and a flush is forced. -/
def enqueue (q : DeferredQueue) (record : PersistRecord) (flushAfter now : ℕ) :
    Bool × DeferredQueue :=
  let items := q.items.insert record.key ⟨record, now, flushAfter⟩
  (decide (q.maxPending ≤ items.entries.length), { q with items := items })

/-- `duration_since` is zero for an item enqueued after `now`. -/
def ready (item : DeferredItem) (now : ℕ) : Bool := item.flushAfter ≤ now - item.enqueuedAt

/-- Extract the records that are due, or all of them. -/
def takeReady (q : DeferredQueue) (now : ℕ) (force : Bool) : List PersistRecord × DeferredQueue :=
  ((q.items.entries.filter fun e => force || ready e.2 now).map fun e => e.2.record,
    { q with items := q.items.retain fun _ item => !(force || ready item now) })

/-- Put back what could not be persisted, due at once. -/
def requeueFailed (q : DeferredQueue) (records : List PersistRecord) (now : ℕ) : DeferredQueue :=
  { q with
    items := records.foldl (fun items record => items.insert record.key ⟨record, now, 0⟩) q.items }

/-- Nothing is due: the queue is left as it is. -/
theorem takeReady_nil {q : DeferredQueue} {now : ℕ} {force : Bool}
    (h : (q.takeReady now force).1 = []) : (q.takeReady now force).2 = q := by
  have hnone : ∀ e ∈ q.items.entries, (force || ready e.2 now) = false := by
    intro e he
    rw [takeReady, List.map_eq_nil_iff, List.filter_eq_nil_iff] at h
    exact Bool.eq_false_iff.mpr (h e he)
  obtain ⟨⟨entries, sorted⟩, maxPending⟩ := q
  have hkeep : (entries.filter fun e => !(force || ready e.2 now)) = entries :=
    List.filter_eq_self.mpr fun e he => by rw [hnone e he]; rfl
  simp only [takeReady, OrderedDict.retain, hkeep]

end DeferredQueue

end Jaiba.Memory
