import Mathlib.Logic.Function.Basic
import Jaiba.Lib.Machine
import Jaiba.Repository.Identity
import Jaiba.Repository.Lifecycle

/-!
# Content files of the queue rows

`enqueue`, `cleanup_completed` and `reconcile_orphans` as processes that share
one database and one content directory. A step is one statement, one
transaction or one file operation; any number of processes interleave.
-/

namespace Jaiba.Repository
open Jaiba.Lib

/-- The `content_key` column. -/
def Database.contentKeys (db : Database) : List String := db.queue.rows.map Row.contentKey

namespace Database

theorem guardedUpdate_contentKeys (db : Database) (now : ℤ) (queueId : String) (guard : Status)
    (set : Row → Row) (hset : ∀ r, (set r).queueId = r.queueId) (event : ProvenanceEvent)
    (details : Json) (hkey : ∀ r, (set r).contentKey = r.contentKey) :
    (db.guardedUpdate now queueId guard set hset event details).2.contentKeys =
      db.contentKeys := by
  unfold guardedUpdate
  simp only
  split
  · rfl
  · rw [contentKeys, insertProvenance_queue, contentKeys]
    simp only [Table.updateWhere, List.map_map]
    refine List.map_congr_left fun r _ => ?_
    simp only [Function.comp_apply]
    split
    · exact hkey r
    · rfl

theorem recoverFold_contentKeys (now : ℤ) (ids : List String) (db : Database) (n : ℕ) :
    (ids.foldl (fun acc queueId =>
      let r := acc.2.recoverOne now queueId
      (if r.1 then acc.1 + 1 else acc.1, r.2)) (n, db)).2.contentKeys = db.contentKeys := by
  induction ids generalizing db n with
  | nil => rfl
  | cons id ids ih =>
    rw [List.foldl_cons, ih]
    exact guardedUpdate_contentKeys _ _ _ _ _ _ _ _ fun _ => rfl

theorem insertPending_contentKeys {db db' : Database} {now : ℤ} {n : NewRow}
    (h : db.insertPending now n = some db') :
    db'.contentKeys = db.contentKeys ++ [n.contentKey] := by
  obtain ⟨queue, hq, rfl⟩ := Option.map_eq_some_iff.mp h
  simp only [contentKeys, Table.insert_rows hq, List.map_append, List.map_cons, List.map_nil,
    NewRow.toRow]

theorem deleteCompleted_contentKeys (db : Database) (cutoff : ℤ) {key : String}
    (h : key ∈ (db.deleteCompleted cutoff).contentKeys) : key ∈ db.contentKeys := by
  obtain ⟨r, hr, rfl⟩ := List.mem_map.mp h
  exact List.mem_map_of_mem (List.mem_filter.mp hr).1

/-- Only `enqueue` brings a key into the queue and only `cleanup_completed`
takes one out. -/
theorem apply_contentKeys (db : Database) {op : Op} (he : ∀ now row, op ≠ .enqueue now row)
    (hc : ∀ now hours, op ≠ .cleanupCompleted now hours) :
    (db.apply op).contentKeys = db.contentKeys := by
  cases op with
  | enqueue now row => exact absurd rfl (he now row)
  | cleanupCompleted now hours => exact absurd rfl (hc now hours)
  | recordEvent now q event details =>
    rw [apply, recordEvent, contentKeys, insertProvenance_queue, contentKeys]
  | recoverAbandoned now flow after => exact recoverFold_contentKeys _ _ _ _
  | claim | complete | fail | requeueDeadLetter =>
    exact guardedUpdate_contentKeys _ _ _ _ _ _ _ _ fun _ => rfl

end Database

namespace Content

/-- What `enqueue` is called with. -/
structure Request where
  flowId : String
  processorId : String
  relationship : String
  packet : DataPacket

/-- Where a call stands. -/
inductive Proc where
  | idle
  /-- `enqueue`: in `put`, before `path.exists()` -/
  | putting (r : Request)
  /-- `enqueue`: no such file, before the temporary is written -/
  | writing (r : Request)
  /-- `enqueue`: the temporary is synced, before the rename -/
  | renaming (r : Request)
  /-- `enqueue`: `put` has returned, before the transaction -/
  | committing (r : Request)
  /-- `cleanup_completed`: after its `SELECT`, before its `DELETE` -/
  | deleting (cutoff : ℤ) (references : List String)
  /-- `cleanup_completed`: at the head of the loop over the keys -/
  | counting (references : List String)
  /-- `cleanup_completed`: `COUNT(*)` of `key` was 0 -/
  | removing (key : String) (references : List String)
  /-- `reconcile_orphans`: after its `SELECT`, before the listing -/
  | listing (referenced : List String)
  /-- `reconcile_orphans`: at the head of the loop over the listed files -/
  | sweeping (referenced paths : List String)

structure State where
  db : Database
  files : Files
  /-- whether the temporary of a call is still in the directory -/
  temporaries : ℕ → Bool
  procs : ℕ → Proc

inductive Action where
  | enqueue (i : ℕ) (r : Request)
  | exists (i : ℕ) | write (i : ℕ) | rename (i : ℕ)
  | commit (i : ℕ) (queueId : String) (now : ℤ)
  | cleanup (i : ℕ) (now : ℤ) (retentionHours : ℕ)
  | deleteRows (i : ℕ) | count (i : ℕ) | remove (i : ℕ)
  | reconcile (i : ℕ)
  /-- `list_content_files`; a file created during the walk may be missed -/
  | list (i : ℕ) (paths : List String)
  | sweep (i : ℕ) | sweepTemporary (i j : ℕ)
  /-- an I/O or SQL error, or the end of the process -/
  | fail (i : ℕ)
  /-- any other transaction of the repository -/
  | transact (op : Op)

namespace State

/-- A new repository. -/
def init : State := ⟨.empty, fun _ => none, fun _ => false, fun _ => .idle⟩

def goto (s : State) (i : ℕ) (p : Proc) : State :=
  { s with procs := Function.update s.procs i p }

/-- The file of a key is written or removed. -/
def setFile (s : State) (key : String) (content : Option Bytes) : State :=
  { s with files := Function.update s.files key content }

def setTemporary (s : State) (i : ℕ) (present : Bool) : State :=
  { s with temporaries := Function.update s.temporaries i present }

def setDb (s : State) (db : Database) : State := { s with db := db }

end State

section
variable (codec : Codec)

def Request.bytes (r : Request) : Bytes := (serializeContent codec r.packet.content).2.2

def Request.key (r : Request) : String := codec.hexDigest (r.bytes codec)

def Request.row (r : Request) (queueId : String) : Database.NewRow :=
  newRow codec queueId r.flowId r.processorId r.relationship r.packet

def step (s : State) : Action → Option State
  | .enqueue i r =>
    match s.procs i with
    | .idle => some (s.goto i (.putting r))
    | _ => none
  | .exists i =>
    match s.procs i with
    | .putting r =>
      some (s.goto i (if (s.files (r.key codec)).isSome then .committing r else .writing r))
    | _ => none
  | .write i =>
    match s.procs i with
    | .writing r =>
      some ((s.setTemporary i true).goto i (.renaming r))
    | _ => none
  | .rename i =>
    match s.procs i with
    | .renaming r =>
      if s.temporaries i then
        some (((s.setFile (r.key codec) (some (r.bytes codec))).setTemporary i false).goto i
          (.committing r))
      else if (s.files (r.key codec)).isSome then some (s.goto i (.committing r))
      else some (s.goto i .idle)
    | _ => none
  | .commit i queueId now =>
    match s.procs i with
    | .committing r =>
      match s.db.insertPending now (r.row codec queueId) with
      | some db => some ((s.setDb db).goto i .idle)
      | none => some (s.goto i .idle)
    | _ => none
  | .cleanup i now retentionHours =>
    match s.procs i with
    | .idle =>
      let cutoff := Database.cleanupCutoff now retentionHours
      some (s.goto i (.deleting cutoff
        ((s.db.queue.rows.filter (Database.expired cutoff)).map Row.contentKey).eraseDups))
    | _ => none
  | .deleteRows i =>
    match s.procs i with
    | .deleting cutoff references =>
      some ((s.setDb (s.db.deleteCompleted cutoff)).goto i (.counting references))
    | _ => none
  | .count i =>
    match s.procs i with
    | .counting [] => some (s.goto i .idle)
    | .counting (key :: references) =>
      some (s.goto i (if s.db.contentKeys.count key = 0 then .removing key references
        else .counting references))
    | _ => none
  | .remove i =>
    match s.procs i with
    | .removing key references =>
      some ((s.setFile key none).goto i (.counting references))
    | _ => none
  | .reconcile i =>
    match s.procs i with
    | .idle => some (s.goto i (.listing s.db.contentKeys.eraseDups))
    | _ => none
  | .list i paths =>
    match s.procs i with
    | .listing referenced =>
      if paths.all fun p => (s.files p).isSome then some (s.goto i (.sweeping referenced paths))
      else none
    | _ => none
  | .sweep i =>
    match s.procs i with
    | .sweeping _ [] => some (s.goto i .idle)
    | .sweeping referenced (p :: paths) =>
      if p ∈ referenced then some (s.goto i (.sweeping referenced paths))
      else
        some ((s.setFile p none).goto i (.sweeping referenced paths))
    | _ => none
  | .sweepTemporary i j =>
    match s.procs i with
    | .sweeping _ _ => some (s.setTemporary j false)
    | _ => none
  | .fail i => some (s.goto i .idle)
  | .transact op =>
    match op with
    | .enqueue .. | .cleanupCompleted .. => none
    | op => some (s.setDb (s.db.apply op))

/-- Any number of handles on one database and one content directory. -/
def handles : Machine State Action := ⟨step codec⟩

/-- Every committed row has its content file, and the file hashes to its key. -/
def Present (s : State) : Prop :=
  ∀ row ∈ s.db.queue.rows, ∃ bytes, s.files row.contentKey = some bytes ∧
    codec.hexDigest bytes = row.contentKey

/-- A committed row has the key, or an `enqueue` whose `put` has returned is
about to commit one. -/
def InUse (s : State) (key : String) : Prop :=
  key ∈ s.db.contentKeys ∨ ∃ i r, s.procs i = .committing r ∧ r.key codec = key

/-- The condition on a step: a content file is deleted only when its key is not
in use at that moment. -/
def Unraced (s : State) : Action → Prop
  | .remove i => ∀ key references, s.procs i = .removing key references → ¬ InUse codec s key
  | .sweep i => ∀ referenced p paths, s.procs i = .sweeping referenced (p :: paths) →
      p ∉ referenced → ¬ InUse codec s p
  | _ => True

/-- What carries `Present` along a run: files hash to their keys, and a key in
use has its file. -/
structure Inv (s : State) : Prop where
  addressed : ∀ key bytes, s.files key = some bytes → codec.hexDigest bytes = key
  kept : ∀ key, InUse codec s key → (s.files key).isSome

variable {codec} {s t : State}

theorem init_inv : Inv codec .init where
  addressed := fun _ _ h => by cases h
  kept := fun _ h => by
    rcases h with h | ⟨_, _, h, _⟩
    · exact absurd h List.not_mem_nil
    · cases h

theorem Inv.present (h : Inv codec s) : Present codec s := by
  intro row hrow
  obtain ⟨bytes, hb⟩ := Option.isSome_iff_exists.mp
    (h.kept row.contentKey (.inl (List.mem_map_of_mem hrow)))
  exact ⟨bytes, hb, h.addressed _ _ hb⟩

/-- A call moves on: the key it is about to commit must have its file. -/
theorem Inv.goto (h : Inv codec s) (i : ℕ) (p : Proc)
    (hp : ∀ r, p = .committing r → (s.files (r.key codec)).isSome) :
    Inv codec (s.goto i p) where
  addressed := h.addressed
  kept := by
    rintro key (hk | ⟨j, r, hj, rfl⟩)
    · exact h.kept key (.inl hk)
    · by_cases hji : j = i
      · subst hji
        simp only [State.goto, Function.update_self] at hj
        exact hp r hj
      · simp only [State.goto, Function.update_of_ne hji] at hj
        exact h.kept _ (.inr ⟨j, r, hj, rfl⟩)

theorem Inv.setTemporary (h : Inv codec s) (i : ℕ) (present : Bool) :
    Inv codec (s.setTemporary i present) := ⟨h.addressed, h.kept⟩

theorem Inv.setDb (h : Inv codec s) (db : Database)
    (hk : ∀ key, key ∈ db.contentKeys → (s.files key).isSome) : Inv codec (s.setDb db) where
  addressed := h.addressed
  kept := by
    rintro key (hkey | hkey)
    · exact hk key hkey
    · exact h.kept key (.inr hkey)

/-- The rename puts a file under the digest of its bytes. -/
theorem Inv.publish (h : Inv codec s) (bytes : Bytes) :
    Inv codec (s.setFile (codec.hexDigest bytes) (some bytes)) where
  addressed := fun key b hb => by
    by_cases hkey : key = codec.hexDigest bytes
    · subst hkey
      simp only [State.setFile, Function.update_self] at hb
      cases hb
      rfl
    · simp only [State.setFile, Function.update_of_ne hkey] at hb
      exact h.addressed key b hb
  kept := fun key hk => by
    by_cases hkey : key = codec.hexDigest bytes
    · subst hkey
      simp only [State.setFile, Function.update_self, Option.isSome_some]
    · simpa only [State.setFile, Function.update_of_ne hkey] using h.kept key hk

/-- The deletion of a file whose key is not in use. -/
theorem Inv.discard (h : Inv codec s) (key : String) (hfree : ¬ InUse codec s key) :
    Inv codec (s.setFile key none) where
  addressed := fun k b hb => by
    by_cases hk : k = key
    · subst hk
      simp only [State.setFile, Function.update_self] at hb
      cases hb
    · simp only [State.setFile, Function.update_of_ne hk] at hb
      exact h.addressed k b hb
  kept := fun k hk => by
    by_cases he : k = key
    · subst he
      exact absurd hk hfree
    · simpa only [State.setFile, Function.update_of_ne he] using h.kept k hk

/-- A step that meets the condition keeps the invariant. -/
theorem step_inv {a : Action} (h : Inv codec s) (hg : Unraced codec s a)
    (hs : step codec s a = some t) : Inv codec t := by
  cases a with
  | enqueue i r =>
    simp only [step] at hs
    split at hs <;> cases hs
    exact h.goto i _ (by simp)
  | «exists» i =>
    simp only [step] at hs
    split at hs <;> cases hs
    next r _ =>
      refine h.goto i _ fun r' hr' => ?_
      split at hr'
      next hsome =>
        cases hr'
        exact hsome
      next => cases hr'
  | write i =>
    simp only [step] at hs
    split at hs <;> cases hs
    exact (h.setTemporary i true).goto i _ (by simp)
  | rename i =>
    simp only [step] at hs
    split at hs
    next r _ =>
      split_ifs at hs with htmp hsome <;> cases hs
      · refine ((h.publish (r.bytes codec)).setTemporary i false).goto i _ fun r' hr' => ?_
        cases hr'
        simp [State.setTemporary, State.setFile, Request.key]
      · exact h.goto i _ fun r' hr' => by cases hr'; exact hsome
      · exact h.goto i _ (by simp)
    next => cases hs
  | commit i queueId now =>
    simp only [step] at hs
    split at hs
    next r hr =>
      split at hs <;> cases hs
      next db hdb =>
        -- the new row has the key whose file the finished `put` relies on
        refine (h.setDb db fun key hkey => ?_).goto i _ (by simp)
        rw [Database.insertPending_contentKeys hdb] at hkey
        rcases List.mem_append.mp hkey with hkey | hkey
        · exact h.kept key (.inl hkey)
        · rw [List.mem_singleton.mp hkey]
          exact h.kept _ (.inr ⟨i, r, hr, rfl⟩)
      next => exact h.goto i _ (by simp)
    next => cases hs
  | cleanup i now hours =>
    simp only [step] at hs
    split at hs <;> cases hs
    exact h.goto i _ (by simp)
  | deleteRows i =>
    simp only [step] at hs
    split at hs <;> cases hs
    next cutoff references _ =>
      exact (h.setDb _ fun key hkey =>
        h.kept key (.inl (Database.deleteCompleted_contentKeys _ _ hkey))).goto i _ (by simp)
  | count i =>
    simp only [step] at hs
    split at hs <;> cases hs
    · exact h.goto i _ (by simp)
    · exact h.goto i _ fun r hr => by split at hr <;> cases hr
  | remove i =>
    simp only [step] at hs
    split at hs <;> cases hs
    next key references hr =>
      exact (h.discard key (hg key references hr)).goto i _ (by simp)
  | reconcile i =>
    simp only [step] at hs
    split at hs <;> cases hs
    exact h.goto i _ (by simp)
  | list i paths =>
    simp only [step] at hs
    split at hs
    · split_ifs at hs
      cases hs
      exact h.goto i _ (by simp)
    · cases hs
  | sweep i =>
    simp only [step] at hs
    split at hs
    · cases hs
      exact h.goto i _ (by simp)
    next referenced p paths hp =>
      split_ifs at hs with href <;> cases hs
      · exact h.goto i _ (by simp)
      · exact (h.discard p (hg referenced p paths hp href)).goto i _ (by simp)
    · cases hs
  | sweepTemporary i j =>
    simp only [step] at hs
    split at hs <;> cases hs
    exact h.setTemporary j false
  | fail i =>
    cases Option.some.inj hs
    exact h.goto i _ (by simp)
  | transact op =>
    simp only [step] at hs
    split at hs
    · cases hs
    · cases hs
    next hne hnc =>
      cases hs
      refine h.setDb _ fun key hkey => h.kept key (.inl ?_)
      rwa [Database.apply_contentKeys s.db hne hnc] at hkey

/-- After the deletion of a file whose key is in use some row has no file, at
once or as soon as the `enqueue` that relies on the file commits. -/
theorem not_present_of_discard {i : ℕ} {p : Proc} {key : String} (hu : InUse codec s key)
    (hi : ∀ r, s.procs i ≠ .committing r)
    (ht : t = (s.setFile key none).goto i p) :
    ¬ Present codec t ∨ ∃ b u, step codec t b = some u ∧ ¬ Present codec u := by
  subst ht
  rcases hu with hk | ⟨j, r, hj, rfl⟩
  · obtain ⟨row, hrow, rfl⟩ := List.mem_map.mp hk
    refine .inl fun hp => ?_
    obtain ⟨bytes, hb, _⟩ := hp row hrow
    simp [State.goto, State.setFile] at hb
  · have hji : j ≠ i := fun he => hi r (he ▸ hj)
    obtain ⟨queueId, hfresh⟩ := Database.exists_fresh s.db
    obtain ⟨db, hdb⟩ := Database.insertPending_of_fresh (n := r.row codec queueId) hfresh 0
    have hstep : step codec ((s.setFile (r.key codec) none).goto i p) (.commit j queueId 0) =
        some ((((s.setFile (r.key codec) none).goto i p).setDb db).goto j .idle) := by
      have hdb' : ((s.setFile (r.key codec) none).goto i p).db.insertPending 0
          (r.row codec queueId) = some db := hdb
      have hj' : ((s.setFile (r.key codec) none).goto i p).procs j = .committing r := by
        simpa only [State.goto, State.setFile, Function.update_of_ne hji] using hj
      simp only [step, hj', hdb']
    refine .inr ⟨.commit j queueId 0, _, hstep, fun hp => ?_⟩
    have hkey : r.key codec ∈ db.contentKeys := by
      rw [Database.insertPending_contentKeys hdb]
      exact List.mem_append_right _ (List.mem_singleton.mpr rfl)
    obtain ⟨row, hrow, hrk⟩ := List.mem_map.mp hkey
    obtain ⟨bytes, hb, _⟩ := hp row hrow
    simp [State.goto, State.setDb, State.setFile, hrk] at hb

/-- A step that does not meet the condition deletes a file that a row has or
will have. -/
theorem lost_of_raced {a : Action} (hs : step codec s a = some t) (hg : ¬ Unraced codec s a) :
    ¬ Present codec t ∨ ∃ b u, step codec t b = some u ∧ ¬ Present codec u := by
  cases a with
  | remove i =>
    simp only [Unraced, not_forall, not_not] at hg
    obtain ⟨key, references, hp, hu⟩ := hg
    simp only [step, hp] at hs
    exact not_present_of_discard hu (by simp [hp]) (Option.some.inj hs).symm
  | sweep i =>
    simp only [Unraced, not_forall, not_not] at hg
    obtain ⟨referenced, p, paths, hp, href, hu⟩ := hg
    simp only [step, hp, href, if_false] at hs
    exact not_present_of_discard hu (by simp [hp]) (Option.some.inj hs).symm
  | _ => exact absurd trivial hg

end

/-- In every run in which no content file is deleted while its key is in use,
every committed row has its content file; and a deletion that breaks this
condition leaves a row without its file, at once or at the commit of the
`enqueue` it raced with. -/
theorem content_present (codec : Codec) {s : State}
    (h : (handles codec).Reach (Unraced codec) .init s) :
    Present codec s ∧ ∀ a t, step codec s a = some t →
      (Unraced codec s a → Present codec t) ∧
      (¬ Unraced codec s a →
        ¬ Present codec t ∨ ∃ b u, step codec t b = some u ∧ ¬ Present codec u) := by
  have hinv : Inv codec s := h.invariant init_inv fun _ _ _ hi hg hs => step_inv hi hg hs
  exact ⟨hinv.present, fun a t hs =>
    ⟨fun hg => (step_inv hinv hg hs).present, fun hg => lost_of_raced hs hg⟩⟩

def exampleRequest : Request := ⟨"orders", "store", "success", examplePacket⟩

/-- A row is enqueued and processed; `cleanup_completed` is about to delete its file. -/
def cleanedTrace : List Action :=
  [.enqueue 0 exampleRequest, .exists 0, .write 0, .rename 0, .commit 0 "q-1" 10,
    .transact (.claim 11 "q-1"), .transact (.complete 12 "q-1" .completed), .cleanup 1 20 0,
    .deleteRows 1, .count 1]

/-- The content of a cleaned row is enqueued again after the deletion. -/
theorem content_present_after_cleanup :
    ∃ s, (handles exampleCodec).exec .init (cleanedTrace ++ [.remove 1, .enqueue 0 exampleRequest,
        .exists 0, .write 0, .rename 0, .commit 0 "q-2" 30]) = some s ∧
      s.db.statusOf "q-1" = none ∧ s.db.statusOf "q-2" = some .pending ∧
      Present exampleCodec s := by
  refine ⟨_, rfl, by decide, by decide, (content_present exampleCodec ?_).1⟩
  refine .trans (.step (a := .remove 1) (.of_exec cleanedTrace rfl
    (by simp [cleanedTrace, Unraced])) ?_ rfl) (.of_exec
      [.enqueue 0 exampleRequest, .exists 0, .write 0, .rename 0, .commit 0 "q-2" 30] rfl
      (by simp [Unraced]))
  rintro key references hp (hk | ⟨i, r, hi, _⟩)
  · cases hk
  · match i, hi with
    | 0, hi => cases hi
    | 1, hi => cases hi
    | _ + 2, hi => cases hi

/-- `enqueue` finds the file of a completed row and relies on it; meanwhile
`cleanup_completed` deletes the row, counts no other row, and after the commit
of the new row deletes the file. -/
theorem content_lost_by_cleanup :
    ∃ s, (handles exampleCodec).exec .init [.enqueue 0 exampleRequest, .exists 0, .write 0,
        .rename 0, .commit 0 "q-1" 10, .transact (.claim 11 "q-1"),
        .transact (.complete 12 "q-1" .completed), .cleanup 1 20 0,
        .enqueue 0 exampleRequest, .exists 0, .deleteRows 1, .count 1,
        .commit 0 "q-2" 21, .remove 1] = some s ∧
      s.db.statusOf "q-2" = some .pending ∧ ¬ Present exampleCodec s := by
  refine ⟨_, rfl, by decide, fun h => ?_⟩
  obtain ⟨bytes, hb, _⟩ := h ((exampleRequest.row exampleCodec "q-2").toRow 21) (by decide)
  cases hb

end Content

end Jaiba.Repository
