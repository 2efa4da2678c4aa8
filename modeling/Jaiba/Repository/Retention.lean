import Jaiba.Repository.Database

/-!
# Ages (`recover_abandoned`, `cleanup_completed`, `cleanup_provenance`)

Which rows the three operations act on, as a function of the age they are
given: any `u64`, of seconds or of hours, that goes through `as i64` before it
is subtracted from the clock.
-/

namespace Jaiba.Repository
open Jaiba.Lib Database

/-- An operation that takes an age. -/
inductive Aged where
  | recoverAbandoned (flowId : String)
  | cleanupCompleted
  | cleanupProvenance
  deriving Repr, DecidableEq

/-- A row of one of the two tables. -/
inductive Item where
  | queued (row : Row)
  | event (id : ℕ) (e : Provenance)

/-- The database has the row, as it is. -/
def Item.In (db : Database) : Item → Prop
  | .queued row => row ∈ db.queue.rows
  | .event id e => (id, e) ∈ db.provenance.entries

namespace Aged

/-- The age that is meant, in seconds. -/
def seconds : Aged → UInt64 → ℕ
  | .recoverAbandoned _, age => age.toNat
  | .cleanupCompleted, age | .cleanupProvenance, age => age.toNat * 3600

def run (db : Database) (now : ℤ) : Aged → UInt64 → Database
  | .recoverAbandoned flowId, age => (db.recoverAbandoned now flowId age.toNat).2
  | .cleanupCompleted, age => db.deleteCompleted (cleanupCutoff now age.toNat)
  | .cleanupProvenance, age => db.cleanupProvenance now age.toNat

/-- The operation changes or deletes the row. -/
def Touches (op : Aged) (db : Database) (now : ℤ) (age : UInt64) (x : Item) : Prop :=
  x.In db ∧ ¬ x.In (op.run db now age)

/-- The time from which the operation counts the age of a row. -/
def since : Aged → Item → Option ℤ
  | .recoverAbandoned _, .queued row => row.claimedAt
  | .cleanupCompleted, .queued row => row.completedAt
  | .cleanupProvenance, .event _ e => some e.createdAt
  | _, _ => none

/-- With this age the operation acts on old enough rows only, and on none that
it would leave alone with a smaller age. -/
structure Respects (op : Aged) (now : ℤ) (age : UInt64) : Prop where
  old : ∀ db x, op.Touches db now age x → ∃ t, op.since x = some t ∧ t + op.seconds age ≤ now
  monotone : ∀ db x smaller, smaller ≤ age → op.Touches db now age x → op.Touches db now smaller x

/-! ### The cutoff -/

/-- The age as the code computes it. -/
def computed : Aged → UInt64 → ℕ
  | .recoverAbandoned _, age => age.toNat
  | .cleanupCompleted, age | .cleanupProvenance, age => saturatingMul age.toNat 3600

def cutoff (op : Aged) (now : ℤ) (age : UInt64) : ℤ := saturatingSub now (asI64 (op.computed age))

theorem computed_lt (op : Aged) (age : UInt64) : op.computed age < 2 ^ 64 := by
  have hage := age.toNat_lt
  cases op with
  | recoverAbandoned flowId => exact hage
  | cleanupCompleted | cleanupProvenance =>
    rw [computed, saturatingMul]
    omega

theorem computed_of_lt {op : Aged} {age : UInt64} (h : op.seconds age < 2 ^ 63) :
    op.computed age = op.seconds age := by
  cases op with
  | recoverAbandoned flowId => rfl
  | cleanupCompleted | cleanupProvenance =>
    rw [seconds] at h
    rw [computed, saturatingMul, seconds]
    omega

theorem le_computed_of_le {op : Aged} {age : UInt64} (h : 2 ^ 63 ≤ op.seconds age) :
    2 ^ 63 ≤ op.computed age := by
  cases op with
  | recoverAbandoned flowId => exact h
  | cleanupCompleted | cleanupProvenance =>
    rw [seconds] at h
    rw [computed, saturatingMul]
    omega

theorem seconds_mono (op : Aged) {a b : UInt64} (h : a ≤ b) : op.seconds a ≤ op.seconds b := by
  have hab : a.toNat ≤ b.toNat := UInt64.le_iff_toNat_le.mp h
  cases op with
  | recoverAbandoned flowId => exact hab
  | cleanupCompleted | cleanupProvenance => exact Nat.mul_le_mul_right 3600 hab

variable {now : ℤ}

/-- An age that fits `i64` is subtracted as it is. -/
theorem cutoff_of_lt (h0 : 0 ≤ now) (h63 : now < 2 ^ 63) {op : Aged} {age : UInt64}
    (h : op.seconds age < 2 ^ 63) : op.cutoff now age = now - op.seconds age := by
  have hint : asI64 (op.seconds age) = op.seconds age := by
    rw [asI64]
    split_ifs <;> omega
  rw [cutoff, computed_of_lt h, hint, saturatingSub]
  omega

/-- A larger one wraps to a negative number: the cutoff is not before `now`. -/
theorem le_cutoff_of_le (h63 : now < 2 ^ 63) {op : Aged} {age : UInt64}
    (h : 2 ^ 63 ≤ op.seconds age) : now ≤ op.cutoff now age := by
  have hlt := op.computed_lt age
  have hle := le_computed_of_le h
  have hint : asI64 (op.computed age) = (op.computed age : ℤ) - 2 ^ 64 := by
    rw [asI64]
    split_ifs <;> omega
  rw [cutoff, hint, saturatingSub]
  omega

end Aged

/-! ### What is acted on -/

namespace Database

theorem statusOf_eq {db : Database} {q : String} {row : Row} (h : db.queue.find? q = some row) :
    db.statusOf q = some row.status := by rw [statusOf, h, Option.map_some]

/-- A row that `recover_abandoned` puts back. -/
def putBack (r : Row) : Row := { r with status := .pending, claimedAt := none }

theorem recoverOne_find? (db : Database) (now : ℤ) (id q : String) :
    (db.recoverOne now id).2.queue.find? q =
      (db.queue.find? q).map fun r => if q = id ∧ r.status = .running then putBack r else r := by
  by_cases hrun : db.statusOf id = some .running
  · rw [recoverOne, (guardedUpdate_hit _ _ _ _ _ _ _ _ hrun).2.1]
    by_cases hq : q = id
    · subst hq
      obtain ⟨row, hrow, hstatus⟩ := Option.map_eq_some_iff.mp hrun
      rw [if_pos rfl, hrow, Option.map_some, Option.map_some, if_pos ⟨rfl, hstatus⟩]
      rfl
    · rw [if_neg hq]
      simp only [hq, false_and, if_false, Option.map_id']
  · rw [recoverOne, guardedUpdate_miss _ _ _ _ _ _ _ _ hrun]
    cases hrow : db.queue.find? q with
    | none => rfl
    | some row =>
      rw [Option.map_some, if_neg]
      rintro ⟨rfl, hstatus⟩
      exact hrun (by rw [statusOf_eq hrow, hstatus])

theorem recoverFold_find? (now : ℤ) (ids : List String) (db : Database) (n : ℕ) (q : String) :
    (ids.foldl (fun acc queueId =>
      let r := acc.2.recoverOne now queueId
      (if r.1 then acc.1 + 1 else acc.1, r.2)) (n, db)).2.queue.find? q =
      (db.queue.find? q).map fun r => if q ∈ ids ∧ r.status = .running then putBack r else r := by
  induction ids generalizing db n with
  | nil => simp only [List.foldl_nil, List.not_mem_nil, false_and, if_false, Option.map_id']
  | cons id ids ih =>
    rw [List.foldl_cons, ih, recoverOne_find?, Option.map_map]
    refine congrArg (Option.map · _) (funext fun r => ?_)
    simp only [Function.comp_apply, List.mem_cons]
    by_cases hrun : r.status = .running
    · by_cases hq : q = id
      · simp [hq, hrun, putBack]
      · simp [hq, hrun]
    · simp [hrun]

theorem recoverFold_provenance (now : ℤ) (ids : List String) {db : Database} (n : ℕ)
    {x : ℕ × Provenance} (h : x ∈ db.provenance.entries) :
    x ∈ (ids.foldl (fun acc queueId =>
      let r := acc.2.recoverOne now queueId
      (if r.1 then acc.1 + 1 else acc.1, r.2)) (n, db)).2.provenance.entries := by
  induction ids generalizing db n with
  | nil => exact h
  | cons id ids ih =>
    rw [List.foldl_cons]
    refine ih _ ?_
    simp only [recoverOne, guardedUpdate]
    split_ifs
    · exact h
    · unfold insertProvenance
      split
      · exact h
      · exact List.mem_append_left _ h

end Database

namespace Aged

/-- What the operation looks for, its age apart. -/
def Looks : Aged → Item → Prop
  | .recoverAbandoned flowId, .queued row => row.flowId = flowId ∧ row.status = .running
  | .cleanupCompleted, .queued row => row.status = .completed
  | .cleanupProvenance, .event _ _ => True
  | _, _ => False

theorem atMost_iff {column : Option ℤ} {cutoff : ℤ} :
    atMost column cutoff = true ↔ ∃ t, column = some t ∧ t ≤ cutoff := by
  cases column with
  | none => simp [atMost]
  | some t => simp [atMost]

theorem queued_in_iff {db : Database} {row : Row} :
    (Item.queued row).In db ↔ db.queue.find? row.queueId = some row :=
  ⟨Table.find?_of_mem, Table.find?_mem⟩

/-- What is acted on: the rows looked for that are not after the cutoff. -/
theorem touches_iff (op : Aged) (db : Database) (now : ℤ) (age : UInt64) (x : Item) :
    op.Touches db now age x ↔
      x.In db ∧ op.Looks x ∧ ∃ t, op.since x = some t ∧ t ≤ op.cutoff now age := by
  refine and_congr_right fun hin => ?_
  cases op with
  | recoverAbandoned flowId =>
    cases x with
    | event id e =>
      simp only [Looks, false_and, iff_false, not_not]
      exact recoverFold_provenance now _ 0 hin
    | queued row =>
      have hrow := queued_in_iff.mp hin
      have hmem : row.queueId ∈ db.abandoned flowId (cutoff (.recoverAbandoned flowId) now age) ↔
          row.flowId = flowId ∧ row.status = .running ∧
            ∃ t, row.claimedAt = some t ∧ t ≤ cutoff (.recoverAbandoned flowId) now age := by
        rw [abandoned, List.mem_map]
        constructor
        · rintro ⟨r, hr, hid⟩
          obtain ⟨hr, hsel⟩ := List.mem_filter.mp hr
          have hfind := Table.find?_of_mem hr
          rw [hid, hrow] at hfind
          cases Option.some.inj hfind
          simp only [Bool.and_eq_true, decide_eq_true_eq, atMost_iff] at hsel
          exact ⟨hsel.1.1, hsel.1.2, hsel.2⟩
        · rintro ⟨hflow, hrun, hold⟩
          refine ⟨row, List.mem_filter.mpr ⟨hin, ?_⟩, rfl⟩
          simp only [Bool.and_eq_true, decide_eq_true_eq, atMost_iff]
          exact ⟨⟨hflow, hrun⟩, hold⟩
      rw [queued_in_iff, run, Database.recoverAbandoned, recoverFold_find?, hrow, Option.map_some,
        Option.some.injEq]
      change ¬ (if row.queueId ∈ db.abandoned flowId (cutoff (.recoverAbandoned flowId) now age) ∧
        row.status = .running then putBack row else row) = row ↔ _
      constructor
      · intro hchanged
        by_cases hsel : row.queueId ∈ db.abandoned flowId
            (cutoff (.recoverAbandoned flowId) now age) ∧ row.status = .running
        · obtain ⟨hflow, hrun, hold⟩ := hmem.mp hsel.1
          exact ⟨⟨hflow, hrun⟩, hold⟩
        · exact absurd (if_neg hsel) hchanged
      · rintro ⟨⟨hflow, hrun⟩, hold⟩ hsame
        rw [if_pos ⟨hmem.mpr ⟨hflow, hrun, hold⟩, hrun⟩] at hsame
        have hstatus := congrArg Row.status hsame
        rw [hrun] at hstatus
        cases hstatus
  | cleanupCompleted =>
    cases x with
    | event id e =>
      simp only [Looks, false_and, iff_false, not_not]
      exact hin
    | queued row =>
      have hrun : (Item.queued row).In (run db now .cleanupCompleted age) ↔
          expired (cutoff .cleanupCompleted now age) row = false := by
        rw [Item.In, run, deleteCompleted, Table.deleteWhere, List.mem_filter, Bool.not_eq_true']
        exact and_iff_right hin
      rw [hrun, Bool.not_eq_false, expired, Bool.and_eq_true, decide_eq_true_eq, atMost_iff]
      rfl
  | cleanupProvenance =>
    cases x with
    | queued row =>
      simp only [Looks, false_and, iff_false, not_not]
      exact hin
    | event id e =>
      have hrun : (Item.event id e).In (run db now .cleanupProvenance age) ↔
          ¬ e.createdAt ≤ cutoff .cleanupProvenance now age := by
        rw [Item.In, run, Database.cleanupProvenance, Log.deleteWhere, List.mem_filter, Bool.not_eq_true',
          decide_eq_false_iff_not]
        exact and_iff_right hin
      rw [hrun, not_not]
      simp [Looks, since]

/-! ### Ages that are kept -/

theorem respects_of_lt {now : ℤ} (h0 : 0 ≤ now) (h63 : now < 2 ^ 63) {op : Aged} {age : UInt64}
    (h : op.seconds age < 2 ^ 63) : op.Respects now age where
  old := fun db x htouch => by
    obtain ⟨-, -, t, ht, hle⟩ := (op.touches_iff db now age x).mp htouch
    rw [cutoff_of_lt h0 h63 h] at hle
    exact ⟨t, ht, by omega⟩
  monotone := fun db x smaller hsmaller htouch => by
    obtain ⟨hin, hlooks, t, ht, hle⟩ := (op.touches_iff db now age x).mp htouch
    have hsec := op.seconds_mono hsmaller
    rw [cutoff_of_lt h0 h63 h] at hle
    refine (op.touches_iff db now smaller x).mpr ⟨hin, hlooks, t, ht, ?_⟩
    rw [cutoff_of_lt h0 h63 (by omega)]
    omega

/-- A row that the operation looks for, its time being `t`. -/
def sampleRow (flowId : String) (status : Status) (t : ℤ) : Row where
  queueId := "q-1"
  packetId := "p-1"
  flowId := flowId
  processorId := "load"
  relationship := "success"
  status := status
  attempt := 0
  attributesJson := "{}"
  schemaJson := none
  contentKey := "c-1"
  contentKind := "records"
  mediaType := none
  contentSize := 2
  createdAt := t
  claimedAt := some t
  completedAt := some t
  error := none

def sampleEvent (t : ℤ) : Provenance where
  queueId := "q-1"
  packetId := "p-1"
  flowId := "flow"
  processorId := "load"
  eventType := .completed
  details := .null
  createdAt := t
  informational := false

/-- For every operation there is a database with one row to act on, of any time. -/
theorem exists_looked (op : Aged) (t : ℤ) : ∃ db x, x.In db ∧ op.Looks x ∧ op.since x = some t := by
  have hqueue : ∀ row : Row, ∃ db : Database, (Item.queued row).In db := fun row =>
    ⟨⟨⟨[row], List.nodup_singleton _⟩, Log.empty⟩, List.mem_singleton_self row⟩
  cases op with
  | recoverAbandoned flowId =>
    obtain ⟨db, hdb⟩ := hqueue (sampleRow flowId .running t)
    exact ⟨db, _, hdb, ⟨rfl, rfl⟩, rfl⟩
  | cleanupCompleted =>
    obtain ⟨db, hdb⟩ := hqueue (sampleRow "flow" .completed t)
    exact ⟨db, _, hdb, rfl, rfl⟩
  | cleanupProvenance =>
    refine ⟨⟨Table.empty, Log.empty.append (sampleEvent t)⟩, .event 1 (sampleEvent t), ?_, trivial, rfl⟩
    exact List.mem_append_right _ (List.mem_singleton_self _)

/-- An age that does not fit acts on the rows of this very second. -/
theorem not_old_of_le {now : ℤ} (h63 : now < 2 ^ 63) {op : Aged} {age : UInt64}
    (h : 2 ^ 63 ≤ op.seconds age) : ∃ db x, op.Touches db now age x ∧ op.since x = some now := by
  obtain ⟨db, x, hin, hlooks, hsince⟩ := op.exists_looked now
  exact ⟨db, x, (op.touches_iff db now age x).mpr
    ⟨hin, hlooks, now, hsince, le_cutoff_of_le h63 h⟩, hsince⟩

/-- An operation respects the age it is given exactly when the age, in seconds,
fits an `i64`. -/
theorem respects_iff (op : Aged) (now : ℤ) (h0 : 0 ≤ now) (h63 : now < 2 ^ 63) (age : UInt64) :
    op.Respects now age ↔ op.seconds age < 2 ^ 63 := by
  refine ⟨fun h => ?_, respects_of_lt h0 h63⟩
  by_contra hle
  obtain ⟨db, x, htouch, hsince⟩ := not_old_of_le h63 (Nat.not_lt.mp hle)
  obtain ⟨t, ht, hold⟩ := h.old db x htouch
  cases Option.some.inj (hsince.symm.trans ht)
  omega

/-- A day kept, at a time of the year 2026. -/
theorem respects_one_day : cleanupCompleted.Respects 1767225600 24 :=
  (respects_iff cleanupCompleted 1767225600 (by decide) (by decide) 24).mpr (by decide)

/-- The largest number of hours, meant as "keep for ever", deletes what was
completed in this second. -/
theorem forever_deletes_all :
    ∃ db x, cleanupCompleted.Touches db 1767225600 (18446744073709551615 : UInt64) x ∧
      cleanupCompleted.since x = some 1767225600 ∧
      ¬ cleanupCompleted.Respects 1767225600 (18446744073709551615 : UInt64) := by
  have hlarge : 2 ^ 63 ≤ cleanupCompleted.seconds (18446744073709551615 : UInt64) := by decide
  obtain ⟨db, x, htouch, hsince⟩ := not_old_of_le (show (1767225600 : ℤ) < 2 ^ 63 by decide) hlarge
  refine ⟨db, x, htouch, hsince, fun h => ?_⟩
  obtain ⟨t, ht, hold⟩ := h.old db x htouch
  cases Option.some.inj (hsince.symm.trans ht)
  omega

end Aged

end Jaiba.Repository
