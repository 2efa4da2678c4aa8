import Jaiba.Repository.Content

/-!
# From `enqueue` to `pending`

The repository between calls: its database and its content directory. A packet
goes through three encoders (columns, JSON columns and a content file shared by
digest) and comes back from `pending` as it was.
-/

namespace Jaiba.Repository
open Jaiba.Lib Content

namespace Database

/-- Every row of `db'` is a row of `db` with its identity. -/
def Stems (db db' : Database) : Prop :=
  ∀ row ∈ db'.queue.rows, ∃ old ∈ db.queue.rows, old.identity = row.identity

theorem Stems.refl (db : Database) : Stems db db := fun row h => ⟨row, h, rfl⟩

theorem Stems.trans {a b c : Database} (h : Stems a b) (h' : Stems b c) : Stems a c := by
  intro row hrow
  obtain ⟨mid, hmid, hmidId⟩ := h' row hrow
  obtain ⟨old, hold, holdId⟩ := h mid hmid
  exact ⟨old, hold, holdId.trans hmidId⟩

theorem guardedUpdate_stems (db : Database) (now : ℤ) (queueId : String) (guard : Status)
    (set : Row → Row) (hset : ∀ r, (set r).queueId = r.queueId) (event : ProvenanceEvent)
    (details : Json) (hid : ∀ r, (set r).identity = r.identity) :
    Stems db (db.guardedUpdate now queueId guard set hset event details).2 := by
  intro row h
  unfold guardedUpdate at h
  dsimp only at h
  split at h
  · exact ⟨row, h, rfl⟩
  · rw [insertProvenance_queue] at h
    obtain ⟨old, hold, rfl⟩ := List.mem_map.mp h
    refine ⟨old, hold, ?_⟩
    dsimp only
    split
    · exact (hid old).symm
    · rfl

theorem recoverFold_stems (now : ℤ) (ids : List String) (db : Database) (n : ℕ) :
    Stems db (ids.foldl (fun acc queueId =>
      let r := acc.2.recoverOne now queueId
      (if r.1 then acc.1 + 1 else acc.1, r.2)) (n, db)).2 := by
  induction ids generalizing db n with
  | nil => exact .refl db
  | cons id ids ih =>
    have hone : Stems db (db.recoverOne now id).2 := by
      unfold recoverOne
      apply guardedUpdate_stems
      intro r
      rfl
    exact hone.trans (ih (db.recoverOne now id).2 _)

/-- A transaction other than `enqueue` brings in no row. -/
theorem apply_stems (db : Database) {op : Op} (he : ∀ now row, op ≠ .enqueue now row) :
    Stems db (db.apply op) := by
  cases op with
  | enqueue now new => exact absurd rfl (he now new)
  | recordEvent now q event details =>
    rw [apply, recordEvent, Stems, insertProvenance_queue]
    exact Stems.refl db
  | recoverAbandoned now flow after => exact recoverFold_stems _ _ _ _
  | cleanupCompleted now hours => exact fun row h => ⟨row, (List.mem_filter.mp h).1, rfl⟩
  | claim | complete | fail | requeueDeadLetter =>
    exact guardedUpdate_stems _ _ _ _ _ _ _ _ fun _ => rfl

end Database

/-! ### Calls -/

structure LocalPacketRepository where
  db : Database
  files : Files

/-- Where an `enqueue` fails: before its content file is in place, or behind it. -/
inductive Fault where
  | put | commit

/-- One call on the repository. `removed` says which of the files a call wants to
delete are really deleted. -/
inductive Call where
  | enqueue (r : Request) (queueId : String) (now : ℤ) (fault : Option Fault)
  /-- `open`: the migrations change no row, `reconcile_orphans` deletes files -/
  | reopen (removed : String → Bool)
  | cleanupCompleted (now : ℤ) (retentionHours : ℕ) (removed : String → Bool)
  /-- any other transaction -/
  | transact (op : Op)

namespace LocalPacketRepository
variable (codec : Codec)

def empty : LocalPacketRepository := ⟨.empty, fun _ => none⟩

/-- `LocalContentRepository::put`: an existing file is left as it is. -/
def put (files : Files) (bytes : Bytes) : Files :=
  if (files (codec.hexDigest bytes)).isSome then files
  else Function.update files (codec.hexDigest bytes) (some bytes)

/-- `enqueue`: the queue id it returns, and the repository behind it. -/
def enqueue (s : LocalPacketRepository) (r : Request) (queueId : String) (now : ℤ)
    (fault : Option Fault) : Option String × LocalPacketRepository :=
  match fault with
  | some .put => (none, s)
  | some .commit => (none, { s with files := put codec s.files (r.bytes codec) })
  | none =>
    match s.db.insertPending now (r.row codec queueId) with
    | some db => (some queueId, ⟨db, put codec s.files (r.bytes codec)⟩)
    | none => (none, { s with files := put codec s.files (r.bytes codec) })

/-- Files without a row are deleted. -/
def reconcile (s : LocalPacketRepository) (removed : String → Bool) : LocalPacketRepository :=
  { s with files := fun key => if key ∉ s.db.contentKeys ∧ removed key then none else s.files key }

def cleanupCompleted (s : LocalPacketRepository) (now : ℤ) (retentionHours : ℕ)
    (removed : String → Bool) : LocalPacketRepository :=
  let cutoff := Database.cleanupCutoff now retentionHours
  let references := (s.db.queue.rows.filter (Database.expired cutoff)).map Row.contentKey
  let db := s.db.deleteCompleted cutoff
  { db := db
    files := fun key =>
      if key ∈ references ∧ db.contentKeys.count key = 0 ∧ removed key then none else s.files key }

def apply (s : LocalPacketRepository) : Call → LocalPacketRepository
  | .enqueue r queueId now fault => (s.enqueue codec r queueId now fault).2
  | .reopen removed => s.reconcile removed
  | .cleanupCompleted now hours removed => s.cleanupCompleted now hours removed
  | .transact op =>
    match op with
    | .enqueue .. | .cleanupCompleted .. => s
    | op => { s with db := s.db.apply op }

def run (s : LocalPacketRepository) (calls : List Call) : LocalPacketRepository :=
  calls.foldl (apply codec) s

end LocalPacketRepository

/-- The packet a call enqueues. -/
def Call.request? : Call → Option Request
  | .enqueue r .. => some r
  | _ => none

/-- What is relied on for one packet: `serde_json` reads back what it wrote of it, its
id is a UUID and its attempt counter a `u32`. -/
structure RoundTrips (codec : Codec) (packet : DataPacket) : Prop where
  records : ∀ records, packet.content = .records records →
    codec.recordsFromSlice (codec.recordsToVec records) = some records
  attributes : codec.attributesFromStr (codec.attributesToString packet.attributes) =
    some packet.attributes
  schema : ∀ schema, packet.schema = some schema →
    codec.schemaFromStr (codec.schemaToString schema) = some schema
  id : codec.parseUuid packet.id = some packet.id
  attempt : packet.attempt < 2 ^ 32

/-! ### One row -/

section
variable {codec : Codec}

/-- Each content variant survives its tagged file. -/
theorem deserializeContent_serializeContent {packet : DataPacket} (h : RoundTrips codec packet) :
    deserializeContent codec (serializeContent codec packet.content).1
      (serializeContent codec packet.content).2.1 (serializeContent codec packet.content).2.2 =
      .ok packet.content := by
  cases hc : packet.content with
  | records records =>
    simp only [serializeContent, deserializeContent, if_pos, h.records records hc]
  | encoded mediaType bytes => rfl

/-- A row of a request comes back as its packet, with the attempt counter of the row. -/
theorem materialize_row {files : Files} {row : Row} {r : Request} {queueId : String}
    (hrow : row.identity = ((r.row codec queueId).toRow 0).identity)
    (hfile : files (r.key codec) = some (r.bytes codec)) (h : RoundTrips codec r.packet) :
    materialize codec files row = .ok ⟨queueId, r.flowId, r.processorId, r.relationship,
      { r.packet with attempt := row.attempt % 2 ^ 32 }⟩ := by
  have hqueue : row.queueId = queueId := congrArg Row.queueId hrow
  have hpacket : row.packetId = r.packet.id := congrArg Row.packetId hrow
  have hflow : row.flowId = r.flowId := congrArg Row.flowId hrow
  have hprocessor : row.processorId = r.processorId := congrArg Row.processorId hrow
  have hrelationship : row.relationship = r.relationship := congrArg Row.relationship hrow
  have hattributes : row.attributesJson = codec.attributesToString r.packet.attributes :=
    congrArg Row.attributesJson hrow
  have hschema : row.schemaJson = r.packet.schema.map codec.schemaToString :=
    congrArg Row.schemaJson hrow
  have hkey : row.contentKey = r.key codec := congrArg Row.contentKey hrow
  have hkind : row.contentKind = (serializeContent codec r.packet.content).1 :=
    congrArg Row.contentKind hrow
  have hmedia : row.mediaType = (serializeContent codec r.packet.content).2.1 :=
    congrArg Row.mediaType hrow
  have hget : files.get codec (r.key codec) = .ok (r.bytes codec) := by
    rw [Files.get, hfile]
    exact if_neg (not_not.mpr rfl)
  have hcontent : deserializeContent codec row.contentKind row.mediaType (r.bytes codec) =
      .ok r.packet.content := by
    rw [hkind, hmedia]
    exact deserializeContent_serializeContent h
  unfold materialize
  rw [hkey, hget]
  simp only [bind, Except.bind, hcontent, hattributes, h.attributes, hschema, hpacket, h.id]
  cases hs : r.packet.schema with
  | none => simp only [Option.map_none, hqueue, hflow, hprocessor, hrelationship, pure, Except.pure]
  | some schema =>
    simp only [Option.map_some, h.schema schema hs, hqueue, hflow, hprocessor, hrelationship, pure,
      Except.pure]

/-! ### The repository over its calls -/

namespace LocalPacketRepository

variable {P : Request → Prop} {s : LocalPacketRepository}

/-- Every file and every row comes from a request of `P`, and every row has its file. -/
structure Inv (codec : Codec) (P : Request → Prop) (s : LocalPacketRepository) : Prop where
  addressed : ∀ key bytes, s.files key = some bytes →
    ∃ r, P r ∧ r.bytes codec = bytes ∧ r.key codec = key
  rows : ∀ row ∈ s.db.queue.rows, ∃ r queueId, P r ∧
    row.identity = ((r.row codec queueId).toRow 0).identity
  kept : ∀ key ∈ s.db.contentKeys, (s.files key).isSome

theorem empty_inv : Inv codec P empty where
  addressed := fun _ _ h => by cases h
  rows := fun _ h => absurd h List.not_mem_nil
  kept := fun _ h => absurd h List.not_mem_nil

theorem put_self (files : Files) (bytes : Bytes) :
    (put codec files bytes (codec.hexDigest bytes)).isSome := by
  unfold put
  split
  · assumption
  · rw [Function.update_self, Option.isSome_some]

theorem put_of_isSome {files : Files} {key : String} (h : (files key).isSome) (bytes : Bytes) :
    put codec files bytes key = files key := by
  unfold put
  split
  · rfl
  · next hnew =>
    rw [Function.update_of_ne]
    rintro rfl
    exact hnew h

theorem put_cases {files : Files} {key : String} {bytes content : Bytes}
    (h : put codec files bytes key = some content) :
    files key = some content ∨ content = bytes ∧ key = codec.hexDigest bytes := by
  unfold put at h
  split at h
  · exact .inl h
  · by_cases hkey : key = codec.hexDigest bytes
    · rw [hkey, Function.update_self, Option.some.injEq] at h
      exact .inr ⟨h.symm, hkey⟩
    · rw [Function.update_of_ne hkey] at h
      exact .inl h

theorem Inv.put (h : Inv codec P s) {r : Request} (hr : P r) :
    Inv codec P { s with files := put codec s.files (r.bytes codec) } where
  addressed := fun key bytes hfile => by
    rcases put_cases hfile with hold | ⟨rfl, rfl⟩
    · exact h.addressed key bytes hold
    · exact ⟨r, hr, rfl, rfl⟩
  rows := h.rows
  kept := fun key hkey => by
    have hsome := h.kept key hkey
    dsimp only
    rwa [put_of_isSome hsome]

theorem Inv.enqueue (h : Inv codec P s) {r : Request} (hr : P r) (queueId : String) (now : ℤ)
    (fault : Option Fault) : Inv codec P (s.enqueue codec r queueId now fault).2 := by
  unfold LocalPacketRepository.enqueue
  split
  · exact h
  · exact h.put hr
  · split
    · next db hdb =>
      have hput := h.put hr
      refine ⟨hput.addressed, fun row hrow => ?_, fun key hkey => ?_⟩
      · obtain ⟨queue, hqueue, rfl⟩ := Option.map_eq_some_iff.mp hdb
        rw [Table.insert_rows hqueue] at hrow
        rcases List.mem_append.mp hrow with hrow | hrow
        · exact h.rows row hrow
        · rw [List.mem_singleton.mp hrow]
          exact ⟨r, queueId, hr, rfl⟩
      · rw [Database.insertPending_contentKeys hdb] at hkey
        rcases List.mem_append.mp hkey with hkey | hkey
        · exact hput.kept key hkey
        · rw [List.mem_singleton.mp hkey]
          exact put_self s.files (r.bytes codec)
    · exact h.put hr

/-- Deleting files that no row of `db` names. -/
theorem Inv.discard (h : Inv codec P s) {db : Database} (hdb : Database.Stems s.db db)
    (hkeys : ∀ key ∈ db.contentKeys, key ∈ s.db.contentKeys) {free : String → Prop}
    [DecidablePred free] (hfree : ∀ key, free key → key ∉ db.contentKeys) :
    Inv codec P ⟨db, fun key => if free key then none else s.files key⟩ where
  addressed := fun key bytes hfile => by
    dsimp only at hfile
    split at hfile
    · cases hfile
    · exact h.addressed key bytes hfile
  rows := fun row hrow => by
    obtain ⟨old, hold, hid⟩ := hdb row hrow
    obtain ⟨r, queueId, hr, hr'⟩ := h.rows old hold
    exact ⟨r, queueId, hr, hid.symm.trans hr'⟩
  kept := fun key hkey => by
    dsimp only
    rw [if_neg fun hf => hfree key hf hkey]
    exact h.kept key (hkeys key hkey)

theorem apply_inv (h : Inv codec P s) {call : Call} (hcall : ∀ r, call.request? = some r → P r) :
    Inv codec P (s.apply codec call) := by
  cases call with
  | enqueue r queueId now fault => exact h.enqueue (hcall r rfl) queueId now fault
  | reopen removed => exact h.discard (.refl s.db) (fun _ hkey => hkey) fun key hfree => hfree.1
  | cleanupCompleted now hours removed =>
    have hstems : s.db.Stems (s.db.apply (.cleanupCompleted now hours)) :=
      Database.apply_stems s.db fun _ _ he => by cases he
    exact h.discard hstems (fun key => Database.deleteCompleted_contentKeys s.db _)
      fun key hfree => List.count_eq_zero.mp hfree.2.1
  | transact op =>
    unfold apply
    dsimp only
    split
    · exact h
    · exact h
    · next hne hnc =>
      have hkeys := Database.apply_contentKeys s.db hne hnc
      refine ⟨h.addressed, fun row hrow => ?_, fun key hkey => ?_⟩
      · obtain ⟨old, hold, hid⟩ := Database.apply_stems s.db hne row hrow
        obtain ⟨r, queueId, hr, hr'⟩ := h.rows old hold
        exact ⟨r, queueId, hr, hid.symm.trans hr'⟩
      · dsimp only at hkey
        rw [hkeys] at hkey
        exact h.kept key hkey

theorem run_inv (h : Inv codec P s) {calls : List Call}
    (hcalls : ∀ r ∈ calls.filterMap Call.request?, P r) : Inv codec P (s.run codec calls) := by
  induction calls generalizing s with
  | nil => exact h
  | cons call calls ih =>
    refine ih (apply_inv h fun r hr => hcalls r ?_) fun r hr => hcalls r ?_
    · exact List.mem_filterMap.mpr ⟨call, List.mem_cons_self, hr⟩
    · obtain ⟨c, hc, hr⟩ := List.mem_filterMap.mp hr
      exact List.mem_filterMap.mpr ⟨c, List.mem_cons_of_mem call hc, hr⟩

/-- What `P` is assumed of its requests. -/
structure Sound (codec : Codec) (P : Request → Prop) : Prop where
  packets : ∀ r, P r → RoundTrips codec r.packet
  /-- SHA-256 is collision free on the contents -/
  digest : ∀ r r', P r → P r' → r.key codec = r'.key codec → r.bytes codec = r'.bytes codec

theorem Inv.file (h : Inv codec P s) (hP : Sound codec P) {r : Request} (hr : P r)
    (hkey : r.key codec ∈ s.db.contentKeys) : s.files (r.key codec) = some (r.bytes codec) := by
  obtain ⟨bytes, hbytes⟩ := Option.isSome_iff_exists.mp (h.kept _ hkey)
  obtain ⟨r', hr', rfl, hkey'⟩ := h.addressed _ _ hbytes
  rw [hbytes, hP.digest r' r hr' hr hkey']

/-- Every row of the repository materialises, so `pending` succeeds. -/
theorem Inv.pending (h : Inv codec P s) (hP : Sound codec P) (flowId : String) :
    ∃ stored, pending codec s.files s.db flowId = .ok stored := by
  refine mapM_ok_of_forall fun row hrow => ?_
  have hmem := (pendingRows_perm s.db flowId).subset hrow
  have hrow := (List.mem_filter.mp hmem).1
  obtain ⟨r, queueId, hr, hid⟩ := h.rows row hrow
  have hkey : row.contentKey = r.key codec := congrArg Row.contentKey hid
  have hfile := h.file hP hr (hkey ▸ List.mem_map_of_mem hrow)
  exact ⟨_, materialize_row hid hfile (hP.packets r hr)⟩

/-- An `enqueue` of another row or a reopening keeps the rows there are. -/
theorem mem_rows_apply {row : Row} (h : row ∈ s.db.queue.rows) {call : Call}
    (hcall : call.request?.isSome ∨ ∃ removed, call = .reopen removed) :
    row ∈ (s.apply codec call).db.queue.rows := by
  cases call with
  | enqueue r queueId now fault =>
    unfold apply LocalPacketRepository.enqueue
    dsimp only
    split
    · exact h
    · exact h
    · split
      · next db hdb =>
        obtain ⟨queue, hqueue, rfl⟩ := Option.map_eq_some_iff.mp hdb
        dsimp only
        rw [Table.insert_rows hqueue]
        exact List.mem_append_left _ h
      · exact h
  | reopen removed => exact h
  | cleanupCompleted now hours removed => rcases hcall with h' | ⟨_, h'⟩ <;> cases h'
  | transact op => rcases hcall with h' | ⟨_, h'⟩ <;> cases h'

theorem mem_rows_run {row : Row} (h : row ∈ s.db.queue.rows) {calls : List Call}
    (hcalls : ∀ call ∈ calls, call.request?.isSome ∨ ∃ removed, call = .reopen removed) :
    row ∈ (s.run codec calls).db.queue.rows := by
  induction calls generalizing s with
  | nil => exact h
  | cons call calls ih =>
    exact ih (mem_rows_apply h (hcalls call List.mem_cons_self)) fun c hc =>
      hcalls c (List.mem_cons_of_mem call hc)

theorem enqueue_ok {r : Request} {queueId returned : String} {now : ℤ} {fault : Option Fault}
    {t : LocalPacketRepository} (h : s.enqueue codec r queueId now fault = (some returned, t)) :
    returned = queueId ∧ (r.row codec queueId).toRow now ∈ t.db.queue.rows := by
  unfold LocalPacketRepository.enqueue at h
  split at h
  · cases h
  · cases h
  · split at h
    · next db hdb =>
      cases h
      obtain ⟨queue, hqueue, rfl⟩ := Option.map_eq_some_iff.mp hdb
      refine ⟨rfl, ?_⟩
      dsimp only
      rw [Table.insert_rows hqueue]
      exact List.mem_append_right _ List.mem_cons_self
    · cases h

/-- A packet enqueued in any repository the calls can lead to comes back from `pending`
after any further enqueues and reopenings, once, as it was. -/
theorem packet_round_trip (codec : Codec) (before after : List Call) (r : Request)
    (queueId returned : String) (now : ℤ) (fault : Option Fault) (t : LocalPacketRepository)
    (henqueue : (empty.run codec before).enqueue codec r queueId now fault = (some returned, t))
    (hafter : ∀ call ∈ after, call.request?.isSome ∨ ∃ removed, call = .reopen removed)
    (hsound : Sound codec (· ∈ r :: (before ++ after).filterMap Call.request?)) :
    ∃ stored, pending codec (t.run codec after).files (t.run codec after).db r.flowId = .ok stored ∧
      ∃ w ∈ stored, w = ⟨returned, r.flowId, r.processorId, r.relationship, r.packet⟩ ∧
        ∀ w' ∈ stored, w'.queueId = returned → w' = w := by
  obtain ⟨rfl, hrow⟩ := enqueue_ok henqueue
  have hbefore : Inv codec (· ∈ r :: (before ++ after).filterMap Call.request?)
      (empty.run codec before) := by
    refine run_inv empty_inv fun r' hr' => List.mem_cons_of_mem r ?_
    rw [List.filterMap_append]
    exact List.mem_append_left _ hr'
  have ht := hbefore.enqueue (r := r) List.mem_cons_self returned now fault
  rw [henqueue] at ht
  have hu : Inv codec (· ∈ r :: (before ++ after).filterMap Call.request?) (t.run codec after) := by
    refine run_inv ht fun r' hr' => List.mem_cons_of_mem r ?_
    rw [List.filterMap_append]
    exact List.mem_append_right _ hr'
  have hkept : (r.row codec returned).toRow now ∈ (t.run codec after).db.queue.rows :=
    mem_rows_run hrow hafter
  obtain ⟨stored, hstored⟩ := hu.pending hsound r.flowId
  have hpending : (r.row codec returned).toRow now ∈ pendingRows (t.run codec after).db r.flowId := by
    refine (pendingRows_perm _ _).mem_iff.mpr (List.mem_filter.mpr ⟨hkept, ?_⟩)
    simp only [Database.NewRow.toRow, Request.row, newRow, decide_true, Bool.and_self]
  obtain ⟨w, hw, hmaterialized⟩ := mem_of_mapM_ok hstored hpending
  have hfile := hu.file hsound (r := r) List.mem_cons_self (List.mem_map_of_mem hkept)
  have hpackets := hsound.packets r List.mem_cons_self
  have hsame : ((r.row codec returned).toRow now).identity =
      ((r.row codec returned).toRow 0).identity := rfl
  have hrowed := materialize_row hsame hfile hpackets
  rw [hmaterialized, Except.ok.injEq] at hrowed
  have hattempt : ((r.row codec returned).toRow now).attempt % 2 ^ 32 = r.packet.attempt :=
    Nat.mod_eq_of_lt hpackets.attempt
  rw [hattempt] at hrowed
  refine ⟨stored, hstored, w, hw, hrowed, fun w' hw' hid => ?_⟩
  -- the queue id is the primary key of the rows behind the entries
  obtain ⟨row', hrow', hmaterialized'⟩ := exists_of_mapM_ok hstored hw'
  have hqueue := (materialize_ok codec hmaterialized').1
  have hmem' := (List.mem_filter.mp ((pendingRows_perm _ _).subset hrow')).1
  have hfind' := Table.find?_of_mem hmem'
  rw [← hqueue, hid] at hfind'
  have hfind := Table.find?_of_mem hkept
  cases hfind.symm.trans hfind'
  exact Except.ok.inj (hmaterialized'.symm.trans hmaterialized)

/-- The bytes of an empty list of records, as a text. -/
def encodedPacket : DataPacket :=
  { examplePacket with content := .encoded "text/plain" [91, 93], attempt := 2 }

def encodedRequest (processorId : String) : Request :=
  ⟨"orders", processorId, "failure", encodedPacket⟩

/-- Three packets that share one content file. -/
theorem packet_round_trip_shared :
    let s := empty.run exampleCodec [.enqueue (encodedRequest "a") "q-1" 10 none]
    let t := (s.enqueue exampleCodec exampleRequest "q-2" 11 none).2
    let u := t.run exampleCodec [.enqueue (encodedRequest "b") "q-3" 12 none, .reopen fun _ => true]
    ∃ stored, pending exampleCodec u.files u.db "orders" = .ok stored ∧
      ∃ w ∈ stored, w = ⟨"q-2", "orders", "store", "success", examplePacket⟩ := by
  intro s t u
  have henqueue : s.enqueue exampleCodec exampleRequest "q-2" 11 none = (some "q-2", t) := rfl
  have hencoded : RoundTrips exampleCodec encodedPacket := by
    refine ⟨fun _ h => ?_, by decide, fun _ h => ?_, by decide, by decide⟩
    · cases h
    · cases h
  have hrecords : RoundTrips exampleCodec exampleRequest.packet := by
    refine ⟨fun records h => ?_, by decide, fun _ h => ?_, by decide, by decide⟩
    · cases h
      have hbytes : exampleCodec.recordsToVec [] = [91, 93] := by decide
      rw [hbytes]
      rfl
    · cases h
  have hsound : Sound exampleCodec (· ∈ [exampleRequest, encodedRequest "a", encodedRequest "b"]) := by
    have hall : ∀ r ∈ [exampleRequest, encodedRequest "a", encodedRequest "b"],
        RoundTrips exampleCodec r.packet ∧ r.bytes exampleCodec = [91, 93] := by
      intro r hr
      simp only [List.mem_cons, List.not_mem_nil, or_false] at hr
      rcases hr with rfl | rfl | rfl
      · exact ⟨hrecords, by decide⟩
      · exact ⟨hencoded, rfl⟩
      · exact ⟨hencoded, rfl⟩
    exact ⟨fun r hr => (hall r hr).1, fun r r' hr hr' _ => (hall r hr).2.trans (hall r' hr').2.symm⟩
  have hafter : ∀ call ∈ [Call.enqueue (encodedRequest "b") "q-3" 12 none, .reopen fun _ => true],
      call.request?.isSome ∨ ∃ removed, call = .reopen removed := by
    intro call hcall
    simp only [List.mem_cons, List.not_mem_nil, or_false] at hcall
    rcases hcall with rfl | rfl
    · exact .inl rfl
    · exact .inr ⟨_, rfl⟩
  obtain ⟨stored, hstored, w, hw, heq, -⟩ := packet_round_trip exampleCodec
    [.enqueue (encodedRequest "a") "q-1" 10 none]
    [.enqueue (encodedRequest "b") "q-3" 12 none, .reopen fun _ => true] exampleRequest "q-2" "q-2" 11 none
    t henqueue hafter hsound
  exact ⟨stored, hstored, w, hw, heq⟩

end LocalPacketRepository

end

end Jaiba.Repository
