import Jaiba.Repository.Database

/-!
# Lifecycle of a durable queue row

The documented state machine of `jaiva_packet_queue.status` and the proof that
every run of the repository's transactions, whatever workers issue them, writes
an event trail that is a path of it.
-/

namespace Jaiba.Repository
open Jaiba.Lib

namespace Lifecycle

/-- The documented transitions; `none` is the state before `enqueue`. `complete`
writes the event it is given, and `FAILED` as the event selects the dead-letter
queue. -/
inductive Step : Option Status → ProvenanceEvent → Status → Prop where
  | enqueue : Step none .enqueued .pending
  | claim : Step (some .pending) .claimed .running
  | recover : Step (some .running) .recovered .pending
  | complete (event : ProvenanceEvent) (h : event ≠ .failed) :
      Step (some .running) event .completed
  | fail : Step (some .running) .failed .deadLetter
  | requeue : Step (some .deadLetter) .requeued .pending

/-- `Path events s`: the events, oldest first, lead from the new state to `s`. -/
inductive Path : List ProvenanceEvent → Option Status → Prop where
  | new : Path [] none
  | snoc {events : List ProvenanceEvent} {s : Option Status} {event : ProvenanceEvent}
      {t : Status} : Path events s → Step s event t → Path (events ++ [event]) (some t)

theorem Path.nil_state {s : Option Status} (h : Path [] s) : s = none := by
  generalize he : ([] : List ProvenanceEvent) = events at h
  cases h with
  | new => rfl
  | snoc => simp at he

end Lifecycle

/-- One transaction, with the value of its clock. -/
inductive Op where
  | enqueue (now : ℤ) (row : Database.NewRow)
  | claim (now : ℤ) (queueId : String)
  | complete (now : ℤ) (queueId : String) (event : ProvenanceEvent)
  | fail (now : ℤ) (queueId error : String) (attempt : ℕ)
  | requeueDeadLetter (now : ℤ) (queueId : String)
  | recordEvent (now : ℤ) (queueId : String) (event : ProvenanceEvent) (details : Json)
  | recoverAbandoned (now : ℤ) (flowId : String) (abandonedAfterSeconds : ℕ)
  | cleanupCompleted (now : ℤ) (retentionHours : ℕ)

namespace Database

def apply (db : Database) : Op → Database
  | .enqueue now row => (db.insertPending now row).getD db
  | .claim now q => (db.claim now q).2
  | .complete now q event => db.complete now q event
  | .fail now q error attempt => db.fail now q error attempt
  | .requeueDeadLetter now q => (db.requeueDeadLetter now q).2
  | .recordEvent now q event details => db.recordEvent now q event details
  | .recoverAbandoned now flow after => (db.recoverAbandoned now flow after).2
  | .cleanupCompleted now hours => db.deleteCompleted (cleanupCutoff now hours)

/-- Any number of workers issuing transactions in any order. -/
def workers : Machine Database Op := ⟨fun db op => some (db.apply op)⟩

/-- What `Uuid::new_v4` is relied on for: an identifier no row has ever had. -/
def FreshId (db : Database) : Op → Prop
  | .enqueue _ row => ∀ e ∈ db.provenance.values, e.queueId ≠ row.queueId
  | _ => True

theorem history_of_fresh {db : Database} {q : String}
    (h : ∀ e ∈ db.provenance.values, e.queueId ≠ q) : db.history q = [] := by
  simp only [history, List.map_eq_nil_iff, List.filter_eq_nil_iff, Bool.and_eq_true,
    decide_eq_true_eq, not_and]
  exact fun e he hq => absurd hq (h e he)

/-! ### Effect of one transaction on one row -/

/-- The row is as it was and no event of it was written. -/
def Untouched (db db' : Database) (q : String) : Prop :=
  db'.queue.find? q = db.queue.find? q ∧ db'.history q = db.history q

theorem Untouched.status {db db' : Database} {q : String} (h : Untouched db db' q) :
    db'.statusOf q = db.statusOf q := congrArg (Option.map Row.status) h.1

/-- `enqueue` created the row. -/
def Created (db db' : Database) (op : Op) (q : String) : Prop :=
  (∃ now row, op = .enqueue now row ∧ row.queueId = q) ∧ db.statusOf q = none ∧
    db'.statusOf q = some .pending ∧ db'.history q = db.history q ++ [.enqueued]

/-- The row took one documented transition and its event was written. -/
def Moved (db db' : Database) (q : String) : Prop :=
  ∃ s event t, db.statusOf q = some s ∧ Lifecycle.Step (some s) event t ∧
    db'.statusOf q = some t ∧ db'.history q = db.history q ++ [event]

/-- The retention of completed rows removed the row. -/
def Removed (db db' : Database) (q : String) : Prop :=
  db.statusOf q = some .completed ∧ db'.statusOf q = none ∧ db'.history q = db.history q

theorem guardedUpdate_effect (db : Database) (now : ℤ) (queueId : String) (guard t : Status)
    (set : Row → Row) (hset : ∀ r, (set r).queueId = r.queueId) (event : ProvenanceEvent)
    (details : Json) (ht : ∀ r, (set r).status = t)
    (hstep : Lifecycle.Step (some guard) event t) (q : String) :
    Untouched db (db.guardedUpdate now queueId guard set hset event details).2 q ∨
      Moved db (db.guardedUpdate now queueId guard set hset event details).2 q := by
  by_cases h : db.statusOf queueId = some guard
  · obtain ⟨_, hfind, hhist⟩ := guardedUpdate_hit db now queueId guard set hset event details h
    by_cases hq : q = queueId
    · subst hq
      obtain ⟨row, hf, _⟩ := Option.map_eq_some_iff.mp h
      refine .inr ⟨guard, event, t, h, hstep, ?_, by rw [hhist, if_pos rfl]⟩
      rw [statusOf, hfind, if_pos rfl, hf, Option.map_some, Option.map_some, ht]
    · exact .inl ⟨by rw [hfind, if_neg hq], by rw [hhist, if_neg hq, List.append_nil]⟩
  · rw [guardedUpdate_miss db now queueId guard set hset event details h]
    exact .inl ⟨rfl, rfl⟩

/-- The transaction of `recover_abandoned` after any part of its loop. -/
theorem recoverFold_effect (now : ℤ) (ids : List String) (db : Database) (n : ℕ) (q : String) :
    let db' := (ids.foldl (fun acc queueId =>
      let r := acc.2.recoverOne now queueId
      (if r.1 then acc.1 + 1 else acc.1, r.2)) (n, db)).2
    Untouched db db' q ∨ (db.statusOf q = some .running ∧ db'.statusOf q = some .pending ∧
      db'.history q = db.history q ++ [.recovered]) := by
  induction ids generalizing db n with
  | nil => exact .inl ⟨rfl, rfl⟩
  | cons id ids ih =>
    rw [List.foldl_cons]
    have hrest := ih (db.recoverOne now id).2 (if (db.recoverOne now id).1 then n + 1 else n)
    -- the first id either misses, hits another row, or moves `q` to PENDING,
    -- where the rest of the loop cannot move it again
    by_cases h : db.statusOf id = some .running
    · obtain ⟨_, hfind, hhist⟩ := guardedUpdate_hit db now id .running
        (fun r => { r with status := .pending, claimedAt := none }) (fun _ => rfl) .recovered
        (.object [("reason", .string "abandoned"), ("status", .string "PENDING")]) h
      by_cases hq : q = id
      · subst hq
        obtain ⟨row, hf, _⟩ := Option.map_eq_some_iff.mp h
        have hp : (db.recoverOne now q).2.statusOf q = some .pending := by
          rw [statusOf, recoverOne, hfind, if_pos rfl, hf]
          rfl
        have hh : (db.recoverOne now q).2.history q = db.history q ++ [.recovered] := by
          rw [recoverOne, hhist, if_pos rfl]
        rcases hrest with hu | ⟨hs, _⟩
        · exact .inr ⟨h, hu.status.trans hp, hu.2.trans hh⟩
        · rw [hp] at hs
          cases hs
      · have hf : (db.recoverOne now id).2.queue.find? q = db.queue.find? q := by
          rw [recoverOne, hfind, if_neg hq]
        have hp : (db.recoverOne now id).2.statusOf q = db.statusOf q :=
          congrArg (Option.map Row.status) hf
        have hh : (db.recoverOne now id).2.history q = db.history q := by
          rw [recoverOne, hhist, if_neg hq, List.append_nil]
        rcases hrest with ⟨hs, he⟩ | ⟨hs, ht, he⟩
        · exact .inl ⟨hs.trans hf, he.trans hh⟩
        · exact .inr ⟨hp ▸ hs, ht, hh ▸ he⟩
    · have hmiss : db.recoverOne now id = (false, db) := guardedUpdate_miss _ _ _ _ _ _ _ _ h
      rw [hmiss] at hrest ⊢
      exact hrest

theorem deleteCompleted_effect (db : Database) (cutoff : ℤ) (q : String) :
    Untouched db (db.deleteCompleted cutoff) q ∨ Removed db (db.deleteCompleted cutoff) q := by
  have hfind : (db.deleteCompleted cutoff).queue.find? q =
      (db.queue.find? q).filter fun r => !expired cutoff r := Table.find?_deleteWhere _ _ _
  cases hf : db.queue.find? q with
  | none =>
    rw [hf] at hfind
    exact .inl ⟨hfind.trans hf.symm, rfl⟩
  | some row =>
    rw [hf, Option.filter_some] at hfind
    cases he : expired cutoff row with
    | false =>
      rw [he] at hfind
      exact .inl ⟨hfind.trans hf.symm, rfl⟩
    | true =>
      have hc : row.status = .completed := by
        simp only [expired, Bool.and_eq_true, decide_eq_true_eq] at he
        exact he.1
      rw [he] at hfind
      exact .inr ⟨by rw [statusOf, hf, Option.map_some, hc], by rw [statusOf, hfind]; rfl, rfl⟩

/-- Every transaction leaves a row alone, creates it, moves it along one
documented transition with its event, or removes it from `COMPLETED`. -/
theorem apply_effect (db : Database) (op : Op) (q : String) :
    Untouched db (db.apply op) q ∨ Created db (db.apply op) op q ∨ Moved db (db.apply op) q ∨
      Removed db (db.apply op) q := by
  cases op with
  | enqueue now row =>
    cases h : db.insertPending now row with
    | none =>
      simp only [apply, h, Option.getD_none]
      exact .inl ⟨rfl, rfl⟩
    | some db' =>
      obtain ⟨hnone, hfind, hhist⟩ := insertPending_spec h
      simp only [apply, h, Option.getD_some]
      by_cases hq : q = row.queueId
      · subst hq
        refine .inr (.inl ⟨⟨now, row, rfl, rfl⟩, hnone, ?_, by rw [hhist, if_pos rfl]⟩)
        rw [statusOf, hfind, if_pos rfl]
        rfl
      · exact .inl ⟨by rw [hfind, if_neg hq], by rw [hhist, if_neg hq, List.append_nil]⟩
  | claim now id =>
    exact (guardedUpdate_effect db now id .pending .running _ _ _ _ (fun _ => rfl) .claim
      q).imp_right fun h => .inr (.inl h)
  | complete now id event =>
    refine (guardedUpdate_effect db now id .running (completedStatus event) _ _ event _
      (fun _ => rfl) ?_ q).imp_right fun h => .inr (.inl h)
    by_cases he : event = .failed
    · subst he
      exact .fail
    · have hc : completedStatus event = .completed := by
        cases event <;> first | rfl | exact absurd rfl he
      exact hc ▸ .complete event he
  | fail now id error attempt =>
    exact (guardedUpdate_effect db now id .running .deadLetter _ _ _ _ (fun _ => rfl) .fail
      q).imp_right fun h => .inr (.inl h)
  | requeueDeadLetter now id =>
    exact (guardedUpdate_effect db now id .deadLetter .pending _ _ _ _ (fun _ => rfl) .requeue
      q).imp_right fun h => .inr (.inl h)
  | recordEvent now id event details =>
    refine .inl ⟨?_, ?_⟩
    · simp only [apply, recordEvent, insertProvenance_queue]
    · simp [apply, recordEvent, insertProvenance_history]
  | recoverAbandoned now flow after =>
    rcases recoverFold_effect now (db.abandoned flow (saturatingSub now (asI64 after))) db 0 q with
      h | ⟨hs, ht, he⟩
    · exact .inl h
    · exact .inr (.inr (.inl ⟨.running, .recovered, .pending, hs, .recover, ht, he⟩))
  | cleanupCompleted now hours =>
    exact (deleteCompleted_effect db _ q).imp_right fun h => .inr (.inr h)

/-! ### Runs -/

/-- The events of a row are a path to its status, or to `COMPLETED` when the
retention has removed it. -/
def Trailed (db : Database) (q : String) : Prop :=
  ∃ s, Lifecycle.Path (db.history q) s ∧
    (db.statusOf q = s ∨ db.statusOf q = none ∧ s = some .completed)

theorem trailed_empty (q : String) : Trailed empty q := ⟨none, .new, .inl rfl⟩

theorem trailed_apply (db : Database) (op : Op) (hfresh : FreshId db op) (q : String)
    (h : Trailed db q) : Trailed (db.apply op) q := by
  obtain ⟨s, hp, hs⟩ := h
  rcases apply_effect db op q with
    hu | ⟨⟨now, row, rfl, rfl⟩, _, hst, hh⟩ | ⟨s', event, t, hcur, hstep, hst, hh⟩ |
      ⟨hc, hst, hh⟩
  · exact ⟨s, hu.2 ▸ hp, hu.status ▸ hs⟩
  · -- a fresh identifier has no events, so its path is the empty one
    have hnew : db.history row.queueId = [] := history_of_fresh hfresh
    rw [hnew] at hp hh
    exact ⟨some .pending, hh ▸ .snoc (hp.nil_state ▸ hp) .enqueue, .inl hst⟩
  · rw [hcur] at hs
    rcases hs with hs | ⟨hnone, _⟩
    · exact ⟨some t, hh ▸ .snoc (hs ▸ hp) hstep, .inl hst⟩
    · cases hnone
  · rw [hc] at hs
    rcases hs with hs | ⟨hnone, _⟩
    · exact ⟨some .completed, by rw [hh, hs]; exact hp, .inr ⟨hst, rfl⟩⟩
    · cases hnone

/-- Every reachable database is trailed. -/
theorem trailed_of_reach {db : Database} (h : workers.Reach FreshId empty db) (q : String) :
    Trailed db q :=
  h.invariant (I := fun db => ∀ q, Trailed db q) trailed_empty
    (fun s op t hI hok hs q => by
      cases Option.some.inj hs
      exact trailed_apply s op hok q (hI q)) q

/-! ### Claims -/

/-- `op` is a `claim` of the row that succeeds. -/
def claims (db : Database) (op : Op) (q : String) : Bool :=
  match op with
  | .claim now id => id = q && (db.claim now id).1
  | _ => false

/-- Successful claims of a row along a run. -/
def claimCount (q : String) : Database → List Op → ℕ
  | _, [] => 0
  | db, op :: ops => (if db.claims op q then 1 else 0) + claimCount q (db.apply op) ops

/-- Some transaction of the run puts the row into `PENDING` from another state. -/
def ReturnsToPending (q : String) : Database → List Op → Prop
  | _, [] => False
  | db, op :: ops =>
    (db.statusOf q ≠ some .pending ∧ (db.apply op).statusOf q = some .pending) ∨
      ReturnsToPending q (db.apply op) ops

theorem claims_status {db : Database} {op : Op} {q : String} (h : db.claims op q = true) :
    db.statusOf q = some .pending ∧ (db.apply op).statusOf q = some .running := by
  cases op with
  | claim now id =>
    simp only [claims, Bool.and_eq_true, decide_eq_true_eq] at h
    obtain ⟨rfl, hok⟩ := h
    by_cases hs : db.statusOf id = some .pending
    · obtain ⟨_, hfind, _⟩ := guardedUpdate_hit db now id .pending
        (fun r => { r with status := .running, claimedAt := some now }) (fun _ => rfl)
        .claimed (.object [("status", .string "RUNNING")]) hs
      obtain ⟨row, hf, _⟩ := Option.map_eq_some_iff.mp hs
      refine ⟨hs, ?_⟩
      rw [statusOf, apply, claim, hfind, if_pos rfl, hf]
      rfl
    · have hmiss : db.claim now id = (false, db) := guardedUpdate_miss _ _ _ _ _ _ _ _ hs
      rw [hmiss] at hok
      cases hok
  | _ => cases h

/-- A row that never returns to `PENDING` is claimed at most once, and not at
all when it does not start in `PENDING`. -/
theorem claimCount_le (q : String) (ops : List Op) (db : Database)
    (h : ¬ ReturnsToPending q db ops) :
    claimCount q db ops ≤ if db.statusOf q = some .pending then 1 else 0 := by
  induction ops generalizing db with
  | nil => simp [claimCount]
  | cons op ops ih =>
    rw [ReturnsToPending, not_or] at h
    obtain ⟨hhere, hlater⟩ := h
    have hrest := ih (db.apply op) hlater
    rw [claimCount]
    cases hc : db.claims op q with
    | true =>
      obtain ⟨hp, hr⟩ := claims_status hc
      rw [hr] at hrest
      simp only [hp, if_true, Option.some.injEq, reduceCtorEq, if_false] at hrest ⊢
      omega
    | false =>
      by_cases hp : db.statusOf q = some .pending
      · simp only [hp, if_true, Bool.false_eq_true, if_false] at hrest ⊢
        split at hrest <;> omega
      · have hn : (db.apply op).statusOf q ≠ some .pending := fun he => hhere ⟨hp, he⟩
        simp only [hp, hn, if_false, Bool.false_eq_true] at hrest ⊢
        omega

/-! ### Transactions that match no row -/

/-- The row a guarded operation names and the status its `UPDATE` asks for. -/
def guardOf : Op → Option (String × Status)
  | .claim _ q => some (q, .pending)
  | .complete _ q _ => some (q, .running)
  | .fail _ q _ _ => some (q, .running)
  | .requeueDeadLetter _ q => some (q, .deadLetter)
  | _ => none

theorem apply_miss (db : Database) (op : Op) (q : String) (s : Status)
    (hg : guardOf op = some (q, s)) (h : db.statusOf q ≠ some s) : db.apply op = db := by
  cases op with
  | claim now id =>
    cases Option.some.inj hg
    exact congrArg Prod.snd (guardedUpdate_miss _ _ _ _ _ _ _ _ h)
  | complete now id event =>
    cases Option.some.inj hg
    exact congrArg Prod.snd (guardedUpdate_miss _ _ _ _ _ _ _ _ h)
  | fail now id error attempt =>
    cases Option.some.inj hg
    exact congrArg Prod.snd (guardedUpdate_miss _ _ _ _ _ _ _ _ h)
  | requeueDeadLetter now id =>
    cases Option.some.inj hg
    exact congrArg Prod.snd (guardedUpdate_miss _ _ _ _ _ _ _ _ h)
  | _ => cases hg

/-- `recover_abandoned` writes nothing about a row that is not `RUNNING`. -/
theorem recover_miss (db : Database) (now : ℤ) (flow : String) (after : ℕ) (q : String)
    (h : db.statusOf q ≠ some .running) :
    Untouched db (db.apply (.recoverAbandoned now flow after)) q := by
  rcases recoverFold_effect now (db.abandoned flow (saturatingSub now (asI64 after))) db 0 q with
    hu | ⟨hs, _⟩
  · exact hu
  · exact absurd hs h

end Database

/-- A row as `enqueue` computes it for a packet with one record. -/
def exampleRow : Database.NewRow where
  queueId := "q-1"
  packetId := "p-1"
  flowId := "orders"
  processorId := "store"
  relationship := "success"
  attempt := 0
  attributesJson := "\x7b\x7d"
  schemaJson := none
  contentKey := "ab"
  contentKind := "RECORDS"
  mediaType := none
  contentSize := 4
  attributeCount := 0
  operationalAttributes := []

end Jaiba.Repository
