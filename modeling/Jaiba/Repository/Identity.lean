import Mathlib.Data.Fintype.EquivFin
import Jaiba.Repository.Store

/-!
# Identity of a row

The columns that `enqueue` writes and no later transaction changes. The
transactions of a run keep every row and its identity; what they do to the
status of a row is stated beside.
-/

namespace Jaiba.Repository
open Jaiba.Lib

/-- The row with the columns of its lifecycle cleared. -/
def Row.identity (r : Row) : Row :=
  { r with
    status := .pending, attempt := 0, createdAt := 0, claimedAt := none, completedAt := none
    error := none }

namespace Database

/-- Identity of the row with a given id. -/
def identityOf (db : Database) (queueId : String) : Option Row :=
  (db.queue.find? queueId).map Row.identity

theorem statusOf_isSome {db : Database} {q : String} :
    (db.statusOf q).isSome = (db.identityOf q).isSome := by
  simp only [statusOf, identityOf, Option.isSome_map]

/-- Every row of `db` is still in `db'`, with its identity. -/
def Keeps (db db' : Database) : Prop :=
  ∀ q row, db.identityOf q = some row → db'.identityOf q = some row

theorem Keeps.refl (db : Database) : Keeps db db := fun _ _ h => h

theorem Keeps.trans {a b c : Database} (h : Keeps a b) (h' : Keeps b c) : Keeps a c :=
  fun q row hq => h' q row (h q row hq)

theorem Keeps.isSome {db db' : Database} (h : Keeps db db') {q : String}
    (hq : (db.statusOf q).isSome) : (db'.statusOf q).isSome := by
  rw [statusOf_isSome] at hq ⊢
  obtain ⟨row, hrow⟩ := Option.isSome_iff_exists.mp hq
  rw [h q row hrow]
  rfl

theorem guardedUpdate_keeps (db : Database) (now : ℤ) (queueId : String) (guard : Status)
    (set : Row → Row) (hset : ∀ r, (set r).queueId = r.queueId) (event : ProvenanceEvent)
    (details : Json) (hid : ∀ r, (set r).identity = r.identity) :
    Keeps db (db.guardedUpdate now queueId guard set hset event details).2 := by
  intro q row hrow
  by_cases h : db.statusOf queueId = some guard
  · obtain ⟨_, hfind, _⟩ := guardedUpdate_hit db now queueId guard set hset event details h
    rw [identityOf, hfind]
    split_ifs
    · rw [Option.map_map, ← hrow, identityOf]
      exact congrArg (Option.map · _) (funext hid)
    · exact hrow
  · rw [guardedUpdate_miss db now queueId guard set hset event details h]
    exact hrow

theorem guardedUpdate_statusOf (db : Database) (now : ℤ) (queueId : String) (guard t : Status)
    (set : Row → Row) (hset : ∀ r, (set r).queueId = r.queueId) (event : ProvenanceEvent)
    (details : Json) (ht : ∀ r, (set r).status = t) (q : String) :
    (db.guardedUpdate now queueId guard set hset event details).2.statusOf q =
      if q = queueId ∧ db.statusOf queueId = some guard then some t else db.statusOf q := by
  by_cases h : db.statusOf queueId = some guard
  · obtain ⟨_, hfind, _⟩ := guardedUpdate_hit db now queueId guard set hset event details h
    obtain ⟨row, hf, _⟩ := Option.map_eq_some_iff.mp h
    simp only [h, and_true]
    rw [statusOf, hfind]
    split_ifs with hq
    · subst hq
      rw [hf, Option.map_some, Option.map_some, ht]
    · rfl
  · rw [guardedUpdate_miss db now queueId guard set hset event details h]
    simp [h]

theorem claim_keeps (db : Database) (now : ℤ) (queueId : String) :
    Keeps db (db.claim now queueId).2 := by
  unfold claim
  apply guardedUpdate_keeps
  intro r
  rfl

theorem complete_keeps (db : Database) (now : ℤ) (queueId : String) (event : ProvenanceEvent) :
    Keeps db (db.complete now queueId event) := by
  unfold complete
  apply guardedUpdate_keeps
  intro r
  rfl

theorem fail_keeps (db : Database) (now : ℤ) (queueId error : String) (attempt : ℕ) :
    Keeps db (db.fail now queueId error attempt) := by
  unfold fail
  apply guardedUpdate_keeps
  intro r
  rfl

theorem claim_statusOf (db : Database) (now : ℤ) (queueId q : String) :
    (db.claim now queueId).2.statusOf q =
      if q = queueId ∧ db.statusOf queueId = some .pending then some .running
      else db.statusOf q := by
  unfold claim
  rw [guardedUpdate_statusOf _ _ _ _ .running]
  intro r
  rfl

theorem complete_statusOf (db : Database) (now : ℤ) (queueId q : String) :
    (db.complete now queueId .completed).statusOf q =
      if q = queueId ∧ db.statusOf queueId = some .running then some .completed
      else db.statusOf q := by
  unfold complete
  rw [guardedUpdate_statusOf _ _ _ _ .completed]
  intro r
  rfl

theorem fail_statusOf (db : Database) (now : ℤ) (queueId error : String) (attempt : ℕ)
    (q : String) :
    (db.fail now queueId error attempt).statusOf q =
      if q = queueId ∧ db.statusOf queueId = some .running then some .deadLetter
      else db.statusOf q := by
  unfold fail
  rw [guardedUpdate_statusOf _ _ _ _ .deadLetter]
  intro r
  rfl

/-- A claim that succeeds found the row `PENDING`. -/
theorem claim_true {db db' : Database} {now : ℤ} {queueId : String}
    (h : db.claim now queueId = (true, db')) : db.statusOf queueId = some .pending := by
  by_contra hs
  rw [claim, guardedUpdate_miss _ _ _ _ _ _ _ _ hs] at h
  cases h

/-- What a claim that succeeds does. -/
theorem claim_spec {db db' : Database} {now : ℤ} {queueId : String}
    (h : db.claim now queueId = (true, db')) :
    db.statusOf queueId = some .pending ∧ db.Keeps db' ∧
      ∀ q, db'.statusOf q = if q = queueId then some .running else db.statusOf q := by
  have hpending := claim_true h
  have hkeeps := db.claim_keeps now queueId
  rw [h] at hkeeps
  refine ⟨hpending, hkeeps, fun q => ?_⟩
  have hq := db.claim_statusOf now queueId q
  rw [h, hpending] at hq
  simpa using hq

theorem insertPending_keeps {db db' : Database} {now : ℤ} {n : NewRow}
    (h : db.insertPending now n = some db') : Keeps db db' := by
  obtain ⟨hnew, hfind, _⟩ := insertPending_spec h
  intro q row hrow
  rw [identityOf, hfind, if_neg]
  · exact hrow
  · rintro rfl
    have hsome : (db.statusOf n.queueId).isSome := by
      rw [statusOf_isSome, hrow]
      rfl
    rw [hnew] at hsome
    cases hsome

theorem insertPending_identityOf {db db' : Database} {now : ℤ} {n : NewRow}
    (h : db.insertPending now n = some db') :
    db'.identityOf n.queueId = some (n.toRow 0).identity := by
  rw [identityOf, (insertPending_spec h).2.1, if_pos rfl]
  rfl

theorem insertPending_statusOf {db db' : Database} {now : ℤ} {n : NewRow}
    (h : db.insertPending now n = some db') (q : String) :
    db'.statusOf q = if q = n.queueId then some .pending else db.statusOf q := by
  rw [statusOf, (insertPending_spec h).2.1]
  split_ifs <;> rfl

theorem recordEvent_statusOf (db : Database) (now : ℤ) (queueId : String)
    (event : ProvenanceEvent) (details : Json) (q : String) :
    (db.recordEvent now queueId event details).statusOf q = db.statusOf q := by
  rw [recordEvent, statusOf, insertProvenance_queue, statusOf]

theorem recordEvent_identityOf (db : Database) (now : ℤ) (queueId : String)
    (event : ProvenanceEvent) (details : Json) (q : String) :
    (db.recordEvent now queueId event details).identityOf q = db.identityOf q := by
  rw [recordEvent, identityOf, insertProvenance_queue, identityOf]

theorem exists_fresh (db : Database) : ∃ queueId, db.statusOf queueId = none := by
  obtain ⟨q, hq⟩ := Infinite.exists_notMem_finset (db.queue.rows.map Row.queueId).toFinset
  refine ⟨q, ?_⟩
  rw [List.mem_toFinset] at hq
  rw [Database.statusOf, Table.find?_none_iff.mpr hq]
  rfl

/-- A row with a fresh id can be inserted. -/
theorem insertPending_of_fresh {db : Database} {n : NewRow} (h : db.statusOf n.queueId = none)
    (now : ℤ) : ∃ db', db.insertPending now n = some db' := by
  cases hdb : db.queue.insert (n.toRow now) with
  | none =>
    have htaken := Table.insert_eq_none_iff.mp hdb
    have hsome : (db.statusOf n.queueId).isSome := by
      rw [statusOf, Option.isSome_map]
      exact htaken
    rw [h] at hsome
    cases hsome
  | some queue => exact ⟨_, by rw [insertPending, hdb]; rfl⟩

end Database

end Jaiba.Repository
