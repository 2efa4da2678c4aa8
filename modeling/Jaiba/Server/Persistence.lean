import Jaiba.Server.Versions

/-!
# What `flows.json` holds

`persist` takes a snapshot and writes it through one temporary file. As long as
no write fails and no two calls use that file at once, the file follows the
records.
-/

namespace Jaiba.Server
open Jaiba.Lib

/-- The bytes of `flows.json`. -/
def Disk.bytes? (d : Disk) : Option (List UInt8) := d.flows.map d.files

/-- `load`: what a new registry reads; `decode` is the parser, `io` a failure to read. -/
def Disk.load (d : Disk) (decode : List UInt8 → Except String (List FlowRecord))
    (io : Option String) : Except FlowError Records :=
  match d.bytes?, io with
  | none, _ => .ok Dict.empty
  | some _, some e => .error (.configuration ("no se pudo leer el registro de flujos: " ++ e))
  | some bytes, none =>
    match decode bytes with
    | .error e => .error (.configuration ("registro de flujos corrupto: " ++ e))
    | .ok records => .ok (Dict.insertAll Dict.empty records FlowRecord.id)

/-- The records that a step has written. -/
def written (s : Registry) (_ : Action) (t : Registry) : List Records :=
  if t.revision = s.revision then [] else [t.records]

/-- The call has the temporary file in its hands. -/
def Stage.usesTmp : Stage → Bool
  | .writeTmp .. | .rename .. => true
  | _ => false

/-- The condition on a step: no file operation fails, the temporary file is
opened while no other call uses it, and a snapshot is not renamed over a later
one. -/
def PersistSound (s : Registry) : Action → Prop
  | .advance i input => ∀ c, s.calls[i]? = some c →
    match c.stage with
    | .persist _ | .writeTmp .. => input.io = none
    | .openTmp .. => input.io = none ∧ ∀ d ∈ s.calls, d.stage.usesTmp = false
    | .rename _ snapshot => input.io = none ∧ s.published.revision ≤ snapshot.revision
    | _ => True
  | _ => True

/-! ### The records of a file -/

section load
variable {records : Records}

/-- Records stand under their own ids. -/
def Keyed (records : Records) : Prop := ∀ id r, Dict.get? records id = some r → r.id = id

theorem mem_sorted {r : FlowRecord} : r ∈ sorted records ↔ ∃ id, Dict.get? records id = some r := by
  rw [sorted, (List.perm_insertionSort _ _).mem_iff, List.mem_map]
  constructor
  · rintro ⟨⟨id, r⟩, he, rfl⟩
    exact ⟨id, Dict.mem_rows_iff.mp he⟩
  · rintro ⟨id, hr⟩
    exact ⟨(id, r), Dict.mem_rows_iff.mpr hr, rfl⟩

theorem sorted_nodup (hkeys : Keyed records) : ((sorted records).map FlowRecord.id).Nodup := by
  have hperm := (List.perm_insertionSort (fun a b : FlowRecord => a.id ≤ b.id)
    (records.rows.map Prod.snd)).map FlowRecord.id
  have hids : (records.rows.map Prod.snd).map FlowRecord.id = records.rows.map Prod.fst := by
    rw [List.map_map]
    refine List.map_congr_left fun e he => ?_
    exact hkeys e.1 e.2 (Dict.mem_rows_iff.mp he)
  rw [sorted, hperm.nodup_iff, hids]
  exact records.primaryKey

/-- Reading back the sorted records gives the same map. -/
theorem get?_insertAll_sorted (hkeys : Keyed records) (id : String) :
    Dict.get? (Dict.insertAll Dict.empty (sorted records) FlowRecord.id) id = Dict.get? records id := by
  rw [Dict.get?_insertAll _ (sorted_nodup hkeys), Dict.get?_empty, Option.or_none]
  cases hr : Dict.get? records id with
  | none =>
    rw [List.find?_eq_none]
    intro r hmem he
    obtain ⟨id', hr'⟩ := mem_sorted.mp hmem
    rw [hkeys id' r hr', decide_eq_true_eq] at he
    rw [he, hr] at hr'
    cases hr'
  | some r =>
    have hsome : ((sorted records).find? fun v => v.id = id).isSome :=
      List.find?_isSome.mpr ⟨r, mem_sorted.mpr ⟨id, hr⟩, decide_eq_true (hkeys id r hr)⟩
    obtain ⟨x, hx⟩ := Option.isSome_iff_exists.mp hsome
    obtain ⟨id', hx'⟩ := mem_sorted.mp (List.mem_of_find?_eq_some hx)
    have hid : x.id = id := by simpa using List.find?_some hx
    rw [hx, ← hr, ← hid, hkeys id' x hx', hx']

end load

/-! ### The invariant -/

/-- The snapshot holds the records as they were after its revision. -/
def Snapshot.Of (log : List Records) (snapshot : Snapshot) : Prop :=
  ∃ records, (Dict.empty :: log)[snapshot.revision]? = some records ∧
    snapshot.records = sorted records

/-- The write of the call is among the first `revision` ones. -/
def Call.Within (c : Call) (revision : ℕ) : Prop := ∀ r, c.wrote = some r → r ≤ revision

/-- The flow that is reported after the save exists. -/
def Recorded (records : Records) : After → Prop
  | .report id => (Dict.get? records id).isSome
  | _ => True

/-- How far a call is with its save. -/
def Saved (codec : Codec) (s : Registry) (log : List Records) (c : Call) : Prop :=
  match c.stage with
  | .seedRunning .. => True
  | .persist after => Recorded s.records after
  | .openTmp after snapshot =>
    Recorded s.records after ∧ snapshot.Of log ∧ c.Within snapshot.revision
  | .writeTmp after snapshot inode =>
    Recorded s.records after ∧ snapshot.Of log ∧ c.Within snapshot.revision ∧
      s.disk.tmp = some inode ∧ s.disk.files inode = []
  | .rename after snapshot =>
    Recorded s.records after ∧ snapshot.Of log ∧ c.Within snapshot.revision ∧
      ∃ inode, s.disk.tmp = some inode ∧ s.disk.files inode = codec.encode snapshot.records
  | .report id => (Dict.get? s.records id).isSome ∧ c.Within s.published.revision
  | .done (.ok _) => c.Within s.published.revision
  | _ => c.wrote = none

/-- The file holds what was published, which is a past of the records. -/
structure Stored (codec : Codec) (s : Registry) (log : List Records) : Prop where
  persistent : s.persistent = true
  length : log.length = s.revision
  last : (Dict.empty :: log)[s.revision]? = some s.records
  keyed : ∀ records ∈ Dict.empty :: log, Keyed records
  published : s.published.Of log
  missing : s.disk.flows = none → s.published = ⟨0, []⟩
  file : ∀ inode, s.disk.flows = some inode → s.disk.files inode = codec.encode s.published.records
  apart : ∀ inode, s.disk.flows = some inode → s.disk.tmp ≠ some inode
  allocated : ∀ inode, s.disk.flows = some inode ∨ s.disk.tmp = some inode →
    inode < s.disk.inodes

structure Synced (codec : Codec) (s : Registry) (log : List Records) : Prop where
  stored : Stored codec s log
  within : ∀ (j : ℕ) (c : Call), s.calls[j]? = some c → c.Within s.revision
  saved : ∀ (j : ℕ) (c : Call), s.calls[j]? = some c → Saved codec s log c
  alone : ∀ (i j : ℕ) (c d : Call), s.calls[i]? = some c → s.calls[j]? = some d → c.stage.usesTmp = true →
    d.stage.usesTmp = true → i = j
  -- the last write is in the file or a call is about to save it
  pending : s.revision ≤ s.published.revision ∨
    ∃ (j : ℕ) (c : Call), s.calls[j]? = some c ∧ c.stage.late = true ∧ c.wrote = some s.revision
  marked : ∀ k < s.revision, ∃ (j : ℕ) (c : Call), s.calls[j]? = some c ∧ c.wrote = some (k + 1)

section steps
variable {codec : Codec} {s t : Registry} {log more : List Records} {c d : Call} {i : ℕ}
  {snapshot : Snapshot} {after : After} {input : Input}

theorem Snapshot.Of.append (h : snapshot.Of log) : snapshot.Of (log ++ more) := by
  obtain ⟨records, hget, hrec⟩ := h
  refine ⟨records, ?_, hrec⟩
  rw [← List.cons_append, List.getElem?_append_left (List.getElem?_eq_some_iff.mp hget).1, hget]

theorem Recorded.mono (h : Recorded s.records after) (hgrows : Grows s t) :
    Recorded t.records after := by
  cases after with
  | report id =>
    obtain ⟨r, hr⟩ := Option.isSome_iff_exists.mp h
    obtain ⟨r', hr', _⟩ := hgrows id r hr
    exact Option.isSome_iff_exists.mpr ⟨r', hr'⟩
  | _ => trivial

theorem Call.Within.mono {n m : ℕ} (h : c.Within n) (hle : n ≤ m) : c.Within m :=
  fun r hr => (h r hr).trans hle

/-- What other calls do leaves a call as far as it was. -/
theorem Saved.mono (h : Saved codec s log c) (hgrows : Grows s t)
    (hpub : s.published.revision ≤ t.published.revision)
    (hdisk : c.stage.usesTmp = true → t.disk = s.disk) : Saved codec t (log ++ more) c := by
  obtain ⟨stage, wrote⟩ := c
  cases stage with
  | seedRunning => trivial
  | persist after => exact Recorded.mono h hgrows
  | openTmp after snapshot =>
    obtain ⟨hrec, hof, hw⟩ := h
    exact ⟨hrec.mono hgrows, hof.append, hw⟩
  | writeTmp after snapshot inode =>
    obtain ⟨hrec, hof, hw, htmp, hfile⟩ := h
    exact ⟨hrec.mono hgrows, hof.append, hw, by rw [hdisk rfl, htmp], by rw [hdisk rfl, hfile]⟩
  | rename after snapshot =>
    obtain ⟨hrec, hof, hw, inode, htmp, hfile⟩ := h
    exact ⟨hrec.mono hgrows, hof.append, hw, inode, by rw [hdisk rfl, htmp],
      by rw [hdisk rfl, hfile]⟩
  | report id =>
    obtain ⟨hsome, hw⟩ := h
    exact ⟨@Recorded.mono s t (.report id) hsome hgrows, hw.mono hpub⟩
  | done reply =>
    cases reply with
    | ok reply => exact Call.Within.mono h hpub
    | error e => exact h
  | _ => exact h

theorem Saved.unwritten (h : Saved codec s log c) (hearly : c.stage.early = true) :
    c.wrote = none := by
  obtain ⟨stage, wrote⟩ := c
  cases stage <;> first | exact h | cases hearly

theorem saved_of_unwritten (hw : c.wrote = none) (hlate : c.stage.late = false) :
    Saved codec s log c := by
  obtain ⟨stage, wrote⟩ := c
  cases stage with
  | done reply =>
    cases reply with
    | ok reply =>
      intro r hr
      rw [hw] at hr
      cases hr
    | error e => exact hw
  | _ => first | exact hw | cases hlate

theorem Stage.isDone_of_late {stage : Stage} (h : stage.late = true) : stage.isDone = false := by
  cases stage <;> first | rfl | cases h

theorem usesTmp_of_not_late (h : c.stage.late = false) : c.stage.usesTmp = false := by
  obtain ⟨stage, wrote⟩ := c
  cases stage <;> first | rfl | cases h

/-- One call is at a new stage; what it needs of the new state, and that the
others keep theirs. -/
theorem Synced.move (h : Synced codec s log) (hstored : Stored codec t (log ++ more))
    (hc : s.calls[i]? = some c) (hcalls : t.calls = s.calls.set i d) (hgrows : Grows s t)
    (hrev : s.revision ≤ t.revision) (hpub : s.published.revision ≤ t.published.revision)
    (hdisk : ∀ j b, j ≠ i → s.calls[j]? = some b → b.stage.usesTmp = true → t.disk = s.disk)
    (hwithin : d.Within t.revision) (hsaved : Saved codec t (log ++ more) d)
    (halone : d.stage.usesTmp = true → c.stage.usesTmp = true ∨
      ∀ b ∈ s.calls, b.stage.usesTmp = false)
    (hpending : t.revision ≤ t.published.revision ∨
      d.stage.late = true ∧ d.wrote = some t.revision ∨
      t.revision = s.revision ∧ (c.stage.late = true → c.wrote ≠ some s.revision))
    (hmarked : t.revision = s.revision ∧ d.wrote = c.wrote ∨
      t.revision = s.revision + 1 ∧ c.wrote = none ∧ d.wrote = some t.revision) :
    Synced codec t (log ++ more) := by
  have hlt := (List.getElem?_eq_some_iff.mp hc).1
  have hself : t.calls[i]? = some d := by rw [hcalls, List.getElem?_set_self hlt]
  have hother : ∀ j, j ≠ i → t.calls[j]? = s.calls[j]? := fun j hj => by
    rw [hcalls, List.getElem?_set_ne (Ne.symm hj)]
  have hfree : d.stage.usesTmp = true → ∀ j b, j ≠ i → s.calls[j]? = some b →
      b.stage.usesTmp = false := by
    intro hd j b hj hb
    rcases halone hd with hcu | hnone
    · rw [← Bool.not_eq_true]
      exact fun hbu => hj (h.alone j i b c hb hc hbu hcu)
    · exact hnone b (List.mem_of_getElem? hb)
  refine ⟨hstored, fun j b hb => ?_, fun j b hb => ?_, fun j k b e hb he hbu heu => ?_, ?_,
    fun k hk => ?_⟩
  · by_cases hj : j = i
    · subst hj
      rw [hself] at hb
      cases hb
      exact hwithin
    · rw [hother j hj] at hb
      exact (h.within j b hb).mono hrev
  · by_cases hj : j = i
    · subst hj
      rw [hself] at hb
      cases hb
      exact hsaved
    · rw [hother j hj] at hb
      exact (h.saved j b hb).mono hgrows hpub (hdisk j b hj hb)
  · by_cases hj : j = i <;> by_cases hk : k = i
    · exact hj.trans hk.symm
    · subst hj
      rw [hself] at hb
      cases hb
      rw [hother k hk] at he
      rw [hfree hbu k e hk he] at heu
      cases heu
    · subst hk
      rw [hself] at he
      cases he
      rw [hother j hj] at hb
      rw [hfree heu j b hj hb] at hbu
      cases hbu
    · rw [hother j hj] at hb
      rw [hother k hk] at he
      exact h.alone j k b e hb he hbu heu
  · rcases hpending with hle | ⟨hlate, hw⟩ | ⟨hsame, hno⟩
    · exact .inl hle
    · exact .inr ⟨i, d, hself, hlate, hw⟩
    · rcases h.pending with hle | ⟨j, b, hb, hlate, hw⟩
      · exact .inl (hsame ▸ hle.trans hpub)
      · have hj : j ≠ i := by
          rintro rfl
          rw [hc] at hb
          cases hb
          exact hno hlate hw
        exact .inr ⟨j, b, by rw [hother j hj, hb], hlate, by rw [hw, hsame]⟩
  · have hold : k < s.revision → (c.wrote = some (k + 1) → d.wrote = some (k + 1)) →
        ∃ (j : ℕ) (b : Call), t.calls[j]? = some b ∧ b.wrote = some (k + 1) := by
      intro hk hkeep
      obtain ⟨j, b, hb, hw⟩ := h.marked k hk
      by_cases hj : j = i
      · subst hj
        rw [hc] at hb
        cases hb
        exact ⟨j, d, hself, hkeep hw⟩
      · exact ⟨j, b, by rw [hother j hj, hb], hw⟩
    rcases hmarked with ⟨hsame, hdw⟩ | ⟨hnext, hcw, hdw⟩
    · exact hold (hsame ▸ hk) fun hw => hdw.trans hw
    · by_cases hlast : k = s.revision
      · exact ⟨i, d, hself, by rw [hdw, hnext, hlast]⟩
      · refine hold (by omega) fun hw => ?_
        rw [hcw] at hw
        cases hw

theorem Stored.current (h : Stored codec s log) : Keyed s.records :=
  h.keyed _ (List.mem_of_getElem? h.last)

/-- The records and the file stay. -/
theorem Stored.quiet (h : Stored codec s log) (hrec : t.records = s.records)
    (hrev : t.revision = s.revision) (hpers : t.persistent = s.persistent) (hq : s.Quiet t) :
    Stored codec t log where
  persistent := hpers.trans h.persistent
  length := hrev ▸ h.length
  last := by rw [hrev, hrec, h.last]
  keyed := h.keyed
  published := hq.published ▸ h.published
  missing := by rw [hq.disk, hq.published]; exact h.missing
  file := by rw [hq.disk, hq.published]; exact h.file
  apart := by rw [hq.disk]; exact h.apart
  allocated := by rw [hq.disk]; exact h.allocated

theorem written_eq_nil (a : Action) (h : t.revision = s.revision) : written s a t = [] := by
  rw [written, if_pos h]

theorem FlowRecord.retire_id (r : FlowRecord) (version now : ℕ) :
    (r.retire version now).id = r.id := by
  unfold FlowRecord.retire
  split
  · rfl
  · split_ifs <;> rfl

theorem FlowRecord.seeded_id (r : FlowRecord) (source checksum : String) (now : ℕ) :
    (r.seeded source checksum now).id = r.id := by
  unfold FlowRecord.seeded
  simp only
  split <;> rfl

variable {stage next : Stage} {id : String} {r : FlowRecord}

theorem Writes.id_eq (h : Writes codec s input stage id r next) (hkeyed : Keyed s.records) :
    r.id = id := by
  have hbase : ((Dict.get? s.records id).getD (.fresh id input.now)).id = id := by
    cases hr : Dict.get? s.records id with
    | none => rfl
    | some r => exact hkeyed id r hr
  cases h with
  | draft record _ hrec =>
    subst hrec
    exact hbase
  | validated hr =>
    have hid := hkeyed _ _ hr
    exact hid
  | archived hr =>
    have hid := hkeyed _ _ hr
    exact hid
  | seeded record hrec =>
    subst hrec
    exact (FlowRecord.seeded_id _ _ _ _).trans hbase
  | activated hr => exact (FlowRecord.retire_id _ _ _).trans (hkeyed _ _ hr)

theorem Writes.next_saved (log : List Records) (i : ℕ) (h : Writes codec s input stage id r next) :
    next.usesTmp = false ∧
      Saved codec (s.write i id r next) log ⟨next, some (s.revision + 1)⟩ := by
  have hsome : (Dict.get? (s.write i id r next).records id).isSome := by
    simp [Registry.write]
  cases h with
  | draft => exact ⟨rfl, trivial⟩
  | validated => exact ⟨rfl, hsome⟩
  | archived => exact ⟨rfl, hsome⟩
  | seeded => exact ⟨rfl, trivial⟩
  | activated => exact ⟨rfl, trivial⟩

theorem Stored.write (h : Stored codec s log) (hw : Writes codec s input stage id r next) :
    Stored codec (s.write i id r next) (log ++ [(s.write i id r next).records]) where
  persistent := h.persistent
  length := by rw [List.length_append, h.length]; rfl
  last := by
    rw [← List.cons_append]
    have hlen : (Dict.empty :: log).length = (s.write i id r next).revision := by
      rw [List.length_cons, h.length]
      rfl
    rw [← hlen]
    exact List.getElem?_concat_length
  keyed := by
    intro records hrecords id' r' hr'
    rw [← List.cons_append] at hrecords
    rcases List.mem_append.mp hrecords with hrecords | hrecords
    · exact h.keyed records hrecords id' r' hr'
    · rw [List.mem_singleton.mp hrecords] at hr'
      simp only [Registry.write, Dict.get?_insert] at hr'
      split_ifs at hr' with hid
      · cases hr'
        rw [hid, hw.id_eq h.current]
      · exact h.current id' r' hr'
  published := h.published.append
  missing := h.missing
  file := h.file
  apart := h.apart
  allocated := h.allocated

theorem Synced.write (h : Synced codec s log) (hc : s.calls[i]? = some c)
    (hw : Writes codec s input c.stage id r next) :
    Synced codec (s.write i id r next) (log ++ [(s.write i id r next).records]) := by
  obtain ⟨htmp, hsaved⟩ := hw.next_saved
    (log ++ [(s.write i id r next).records]) i
  refine h.move (d := ⟨next, some (s.revision + 1)⟩) (h.stored.write hw) hc (set_of_modify hc)
    (write_grows hw i) (Nat.le_succ _) (Nat.le_refl _) (fun _ _ _ _ _ => rfl) ?_ hsaved ?_
    (.inr (.inl ⟨hw.late, rfl⟩))
    (.inr ⟨rfl, (h.saved i c hc).unwritten hw.early, rfl⟩)
  · rintro _ ⟨⟩
    exact Nat.le_refl _
  · intro hd
    rw [htmp] at hd
    cases hd

/-- A step that only moves a call on, before its write or at its end. -/
theorem Synced.quiet (h : Synced codec s log) (hc : s.calls[i]? = some c)
    (hm : s.Moves i t next) (hq : s.Quiet t)
    (hl : c.stage.early = true ∧ next.late = false ∨
      c.stage.late = true ∧ next = .persist .seeded) :
    Synced codec t (log ++ []) := by
  have hstored := h.stored.quiet hm.records hm.revision hm.persistent hq
  have hgrows : Grows s t := fun id r hr => ⟨r, hm.records ▸ hr, List.prefix_rfl⟩
  have hwithin := h.within i c hc
  rcases hl with ⟨hearly, hnext⟩ | ⟨hlate, rfl⟩
  · have hw := (h.saved i c hc).unwritten hearly
    have hnot : c.stage.late ≠ true := by
      intro hlate
      rw [Stage.early, hlate] at hearly
      cases hearly
    refine h.move (d := { c with stage := next }) (by rwa [List.append_nil]) hc
      (hm.calls.trans (set_of_modify hc)) hgrows hm.revision.ge (by rw [hq.published])
      (fun _ _ _ _ _ => hq.disk) (hwithin.mono hm.revision.ge) (saved_of_unwritten hw hnext) ?_
      (.inr (.inr ⟨hm.revision, fun hlate => absurd hlate hnot⟩)) (.inl ⟨hm.revision, rfl⟩)
    intro htmp
    rw [usesTmp_of_not_late (c := { c with stage := next }) hnext] at htmp
    cases htmp
  · refine h.move (d := { c with stage := .persist .seeded }) (by rwa [List.append_nil]) hc
      (hm.calls.trans (set_of_modify hc)) hgrows hm.revision.ge (by rw [hq.published])
      (fun _ _ _ _ _ => hq.disk) (hwithin.mono hm.revision.ge) trivial (fun htmp => (by cases htmp)) ?_
      (.inl ⟨hm.revision, rfl⟩)
    by_cases hw : c.wrote = some s.revision
    · exact .inr (.inl ⟨rfl, hw.trans (congrArg some hm.revision.symm)⟩)
    · exact .inr (.inr ⟨hm.revision, fun _ => hw⟩)

/-- A call returns or goes on to its report once its snapshot is in place. -/
theorem persisted_saved (codec : Codec) (log : List Records) (i : ℕ) (u : Registry) (hrec : Recorded u.records after)
    (hw : c.Within u.published.revision) : ∃ next,
    (u.persisted i after).calls = u.calls.modify i (fun c => { c with stage := next }) ∧
      next.usesTmp = false ∧ Saved codec (u.persisted i after) log { c with stage := next } ∧
      (u.persisted i after).records = u.records ∧ (u.persisted i after).revision = u.revision ∧
      (u.persisted i after).persistent = u.persistent ∧ u.Quiet (u.persisted i after) := by
  cases after with
  | report id => exact ⟨_, rfl, rfl, ⟨hrec, hw⟩, rfl, rfl, rfl, rfl, rfl⟩
  | _ => exact ⟨_, rfl, rfl, hw, rfl, rfl, rfl, rfl, rfl⟩

theorem Synced.begin (h : Synced codec s log) (hc : s.calls[i]? = some c)
    (hstage : c.stage = .persist after) :
    Synced codec (s.goto i (.openTmp after ⟨s.revision, sorted s.records⟩)) (log ++ []) := by
  have hsaved := h.saved i c hc
  unfold Saved at hsaved
  rw [hstage] at hsaved
  have hof : (⟨s.revision, sorted s.records⟩ : Snapshot).Of log := ⟨_, h.stored.last, rfl⟩
  refine h.move (d := { c with stage := .openTmp after ⟨s.revision, sorted s.records⟩ })
    (by rw [List.append_nil]; exact h.stored.quiet rfl rfl rfl ⟨rfl, rfl⟩) hc (set_of_modify hc)
    (fun id r hr => ⟨r, hr, List.prefix_rfl⟩) (Nat.le_refl _) (Nat.le_refl _)
    (fun _ _ _ _ _ => rfl) (h.within i c hc) ⟨hsaved, hof.append, h.within i c hc⟩
    (fun htmp => (by cases htmp)) ?_ (.inl ⟨rfl, rfl⟩)
  by_cases hw : c.wrote = some s.revision
  · exact .inr (.inl ⟨rfl, hw⟩)
  · exact .inr (.inr ⟨rfl, fun _ => hw⟩)

/-- A write to the temporary file of the only call that uses it. -/
theorem Synced.tmp (h : Synced codec s log) (hc : s.calls[i]? = some c) {disk : Disk}
    (hothers : ∀ j b, j ≠ i → s.calls[j]? = some b → b.stage.usesTmp = false)
    (hflows : disk.flows = s.disk.flows)
    (hfiles : ∀ inode, s.disk.flows = some inode → disk.files inode = s.disk.files inode)
    (hapart : ∀ inode, s.disk.flows = some inode → disk.tmp ≠ some inode)
    (hallocated : ∀ inode, disk.flows = some inode ∨ disk.tmp = some inode → inode < disk.inodes)
    (hnext : next.late = true)
    (hsaved : Saved codec { s with disk := disk } log { c with stage := next })
    (halone : c.stage.usesTmp = true ∨ ∀ b ∈ s.calls, b.stage.usesTmp = false) :
    Synced codec ({ s with disk := disk }.goto i next) (log ++ []) := by
  have hst := h.stored
  refine h.move (d := { c with stage := next }) ?_ hc (set_of_modify hc)
    (fun id r hr => ⟨r, hr, List.prefix_rfl⟩) (Nat.le_refl _) (Nat.le_refl _)
    (fun j b hj hb hu => ?_) (h.within i c hc) ?_ (fun _ => halone) ?_
    (.inl ⟨rfl, rfl⟩)
  · rw [List.append_nil]
    exact ⟨hst.persistent, hst.length, hst.last, hst.keyed, hst.published,
      fun hnone => hst.missing (hflows ▸ hnone),
      fun inode hin => (hfiles inode (hflows ▸ hin)).trans (hst.file inode (hflows ▸ hin)),
      fun inode hin => hapart inode (hflows ▸ hin), hallocated⟩
  · rw [hothers j b hj hb] at hu
    cases hu
  · exact hsaved.mono (fun id r hr => ⟨r, hr, List.prefix_rfl⟩) (Nat.le_refl _) fun _ => rfl
  · by_cases hw : c.wrote = some s.revision
    · exact .inr (.inl ⟨hnext, hw⟩)
    · exact .inr (.inr ⟨rfl, fun _ => hw⟩)

/-- The temporary file becomes `flows.json`. -/
theorem Synced.rename (h : Synced codec s log) (hc : s.calls[i]? = some c) {inode : ℕ}
    (hstage : c.stage = .rename after snapshot) (htmp : s.disk.tmp = some inode)
    (hle : s.published.revision ≤ snapshot.revision) :
    Synced codec ({ s with
      disk := { s.disk with flows := some inode, tmp := none }
      published := snapshot }.persisted i after) (log ++ []) := by
  have hst := h.stored
  have hsaved := h.saved i c hc
  unfold Saved at hsaved
  rw [hstage] at hsaved
  obtain ⟨hrec, hof, hw, inode', htmp', hfile⟩ := hsaved
  rw [htmp, Option.some.injEq] at htmp'
  subst htmp'
  have huses : c.stage.usesTmp = true := by rw [hstage]; rfl
  generalize hu : ({ s with
    disk := { s.disk with flows := some inode, tmp := none }
    published := snapshot } : Registry) = u
  have hstored : Stored codec u log := by
    subst hu
    refine ⟨hst.persistent, hst.length, hst.last, hst.keyed, hof, fun hnone => ?_, ?_,
      fun _ _ hnone => ?_, ?_⟩
    · cases hnone
    · rintro _ ⟨⟩
      exact hfile
    · cases hnone
    · rintro _ (⟨⟨⟩⟩ | hnone)
      · exact hst.allocated inode (.inr htmp)
      · cases hnone
  have hurec : u.records = s.records := by rw [← hu]
  have hurev : u.revision = s.revision := by rw [← hu]
  have hupub : u.published = snapshot := by rw [← hu]
  have hucalls : u.calls = s.calls := by rw [← hu]
  obtain ⟨next, hcalls, hnext, hsav, hr, hv, hp, hq⟩ := persisted_saved codec
    (log ++ []) i u (hurec ▸ hrec) (hupub ▸ hw)
  refine h.move (d := { c with stage := next })
    (by rw [List.append_nil]; exact hstored.quiet hr hv hp hq) hc
    (hcalls.trans (by rw [hucalls]; exact set_of_modify hc))
    (fun id r hid => ⟨r, by rw [hr, hurec, hid], List.prefix_rfl⟩) (hv.trans hurev).ge
    (by rw [hq.published, hupub]; exact hle) (fun j b hj hb hbu => ?_)
    ((h.within i c hc).mono (hv.trans hurev).ge) hsav (fun hd => ?_) ?_
    (.inl ⟨hv.trans hurev, rfl⟩)
  · exact absurd (h.alone j i b c hb hc hbu huses) hj
  · rw [hnext] at hd
    cases hd
  · by_cases hwrote : c.wrote = some s.revision
    · refine .inl ?_
      rw [hv, hurev, hq.published, hupub]
      exact hw s.revision hwrote
    · exact .inr (.inr ⟨hv.trans hurev, fun _ => hwrote⟩)

theorem Synced.report (h : Synced codec s log) (hc : s.calls[i]? = some c)
    (hstage : c.stage = .report id) (reply : Reply) :
    Synced codec (s.finish i (.ok reply)) (log ++ []) := by
  have hsaved := h.saved i c hc
  unfold Saved at hsaved
  rw [hstage] at hsaved
  refine h.move (d := { c with stage := .done (.ok reply) })
    (by rw [List.append_nil]; exact h.stored.quiet rfl rfl rfl ⟨rfl, rfl⟩) hc (set_of_modify hc)
    (fun id r hr => ⟨r, hr, List.prefix_rfl⟩) (Nat.le_refl _) (Nat.le_refl _)
    (fun _ _ _ _ _ => rfl) (h.within i c hc) hsaved.2 (fun htmp => (by cases htmp)) ?_
    (.inl ⟨rfl, rfl⟩)
  by_cases hw : c.wrote = some s.revision
  · exact .inl (hsaved.2 _ hw)
  · exact .inr (.inr ⟨rfl, fun _ => hw⟩)

theorem Synced.persist (h : Synced codec s log) (hc : s.calls[i]? = some c)
    (hok : PersistSound s (.advance i input))
    (hs : s.stepPersist i codec input c.stage = some t) : Synced codec t (log ++ []) := by
  have hst := h.stored
  have hcond := hok c hc
  have hsaved := h.saved i c hc
  unfold Saved at hsaved
  unfold Registry.stepPersist at hs
  split at hs
  next after hstage =>
    rw [hstage] at hcond
    simp only at hcond
    rw [hst.persistent, hcond] at hs
    cases hs
    exact h.begin hc hstage
  next after snapshot hstage =>
    rw [hstage] at hcond hsaved
    simp only at hcond hsaved
    obtain ⟨hio, hfree⟩ := hcond
    obtain ⟨hrec, hof, hw⟩ := hsaved
    have hothers : ∀ j b, j ≠ i → s.calls[j]? = some b → b.stage.usesTmp = false :=
      fun j b _ hb => hfree b (List.mem_of_getElem? hb)
    rw [hio] at hs
    split at hs
    next heq => cases heq
    next inode _ htmp =>
      cases hs
      have hne : ∀ inode', s.disk.flows = some inode' → inode' ≠ inode := by
        rintro inode' hin rfl
        exact hst.apart _ hin htmp
      refine h.tmp hc hothers rfl (fun inode' hin => ?_) hst.apart hst.allocated rfl
        ⟨hrec, hof, hw, htmp, ?_⟩ (.inr hfree)
      · exact Function.update_of_ne (hne inode' hin) _ _
      · exact Function.update_self _ _ _
    next _ htmp =>
      cases hs
      have hne : ∀ inode', s.disk.flows = some inode' → inode' ≠ s.disk.inodes :=
        fun inode' hin => (hst.allocated inode' (.inl hin)).ne
      refine h.tmp hc hothers rfl (fun inode' hin => ?_) (fun inode' hin htmp' => ?_)
        (fun inode' hin => ?_) rfl ⟨hrec, hof, hw, rfl, ?_⟩ (.inr hfree)
      · exact Function.update_of_ne (hne inode' hin) _ _
      · exact hne inode' hin (Option.some.inj htmp').symm
      · rcases hin with hin | hin
        · exact (hst.allocated inode' (.inl hin)).trans (Nat.lt_succ_self _)
        · rw [← Option.some.inj hin]
          exact Nat.lt_succ_self _
      · exact Function.update_self _ _ _
  next after snapshot inode hstage =>
    rw [hstage] at hcond hsaved
    simp only at hcond hsaved
    obtain ⟨hrec, hof, hw, htmp, hfile⟩ := hsaved
    rw [hcond] at hs
    cases hs
    have huses : c.stage.usesTmp = true := by rw [hstage]; rfl
    have hne : ∀ inode', s.disk.flows = some inode' → inode' ≠ inode := by
      rintro inode' hin rfl
      exact hst.apart _ hin htmp
    refine h.tmp hc (fun j b hj hb => ?_) rfl (fun inode' hin => ?_) hst.apart hst.allocated rfl
      ⟨hrec, hof, hw, inode, htmp, ?_⟩ (.inl huses)
    · rw [← Bool.not_eq_true]
      exact fun hbu => hj (h.alone j i b c hb hc hbu huses)
    · exact Function.update_of_ne (hne inode' hin) _ _
    · rw [hfile, List.drop_nil, List.append_nil]
      exact Function.update_self _ _ _
  next after snapshot hstage =>
    rw [hstage] at hcond hsaved
    simp only at hcond hsaved
    obtain ⟨_, _, _, inode, htmp, _⟩ := hsaved
    rw [hcond.1, htmp] at hs
    cases hs
    exact h.rename hc hstage htmp hcond.2
  next id hstage =>
    rw [hstage] at hsaved
    obtain ⟨r, hr⟩ := Option.isSome_iff_exists.mp hsaved.1
    rw [hr] at hs
    cases hs
    exact h.report hc hstage _
  next => cases hs

theorem Synced.join (h : Synced codec s log) (hcalls : t.calls = s.calls ++ [c])
    (hrec : t.records = s.records) (hrev : t.revision = s.revision)
    (hpers : t.persistent = s.persistent) (hq : s.Quiet t) (hw : c.wrote = none)
    (hearly : c.stage.late = false) : Synced codec t (log ++ []) := by
  have hgrows : Grows s t := fun id r hr => ⟨r, hrec ▸ hr, List.prefix_rfl⟩
  have hold : ∀ (j : ℕ) (b : Call), t.calls[j]? = some b → s.calls[j]? = some b ∨ b = c := by
    intro j b hb
    rw [hcalls, List.getElem?_append] at hb
    split_ifs at hb with hlt
    · exact .inl hb
    · exact .inr (List.mem_singleton.mp (List.mem_of_getElem? hb))
  have htmp := usesTmp_of_not_late hearly
  refine ⟨by rw [List.append_nil]; exact h.stored.quiet hrec hrev hpers hq, fun j b hb => ?_,
    fun j b hb => ?_, fun j k b e hb he hbu heu => ?_, ?_, fun k hk => ?_⟩
  · rcases hold j b hb with hb | rfl
    · exact (h.within j b hb).mono hrev.ge
    · intro r hr
      rw [hw] at hr
      cases hr
  · rcases hold j b hb with hb | rfl
    · exact (h.saved j b hb).mono hgrows (by rw [hq.published]) fun _ => hq.disk
    · exact saved_of_unwritten hw hearly
  · rcases hold j b hb with hb | rfl
    · rcases hold k e he with he | rfl
      · exact h.alone j k b e hb he hbu heu
      · rw [htmp] at heu
        cases heu
    · rw [htmp] at hbu
      cases hbu
  · rw [hrev, hq.published]
    rcases h.pending with hle | ⟨j, b, hb, hlate, hwrote⟩
    · exact .inl hle
    · refine .inr ⟨j, b, ?_, hlate, hwrote⟩
      rw [hcalls, List.getElem?_append_left (List.getElem?_eq_some_iff.mp hb).1, hb]
  · obtain ⟨j, b, hb, hwrote⟩ := h.marked k (hrev ▸ hk)
    refine ⟨j, b, ?_, hwrote⟩
    rw [hcalls, List.getElem?_append_left (List.getElem?_eq_some_iff.mp hb).1, hb]

theorem step_synced {a : Action} (h : Synced codec s log) (hok : PersistSound s a)
    (hs : step codec s a = some t) : Synced codec t (log ++ written s a t) := by
  cases a with
  | call request =>
    cases Option.some.inj hs
    have hnil : written s (.call request) (s.accept request) = [] :=
      written_eq_nil _ (by cases request <;> rfl)
    rw [hnil]
    cases request <;> exact h.join rfl rfl rfl rfl ⟨rfl, rfl⟩ rfl rfl
  | finish supervisor =>
    cases Option.some.inj hs
    have hgrows : Grows s (s.kill supervisor) := fun id r hr => ⟨r, hr, List.prefix_rfl⟩
    rw [written_eq_nil (s := s) (t := s.kill supervisor) (.finish supervisor) rfl]
    exact ⟨by rw [List.append_nil]; exact h.stored.quiet rfl rfl rfl ⟨rfl, rfl⟩, h.within,
      fun j c hc => (h.saved j c hc).mono hgrows (Nat.le_refl _) fun _ => rfl, h.alone, h.pending,
      h.marked⟩
  | advance i input =>
    obtain ⟨c, hc, hadv⟩ := Option.bind_eq_some_iff.mp hs
    rcases Registry.advance_spec hadv with ⟨next, hm, hq, hl, _⟩ | ⟨id, r, next, hw, rfl⟩ | hp
    · rw [written_eq_nil _ hm.revision]
      exact h.quiet hc hm hq hl
    · have hwritten : written s (.advance i input) (s.write i id r next) =
          [(s.write i id r next).records] := if_neg (Nat.succ_ne_self _)
      rw [hwritten]
      exact h.write hc hw
    · obtain ⟨next, hm, _⟩ := Registry.stepPersist_cases hp
      rw [written_eq_nil _ hm.revision]
      exact h.persist hc hok hp

theorem create_synced (codec : Codec) (maxConcurrent : ℕ) :
    Synced codec (.create true maxConcurrent) [] := by
  refine ⟨⟨rfl, rfl, rfl, ?_, ⟨Dict.empty, rfl, rfl⟩, fun _ => rfl, ?_, ?_, ?_⟩, ?_, ?_, ?_,
    .inl (Nat.le_refl _), fun _ hk => absurd hk (Nat.not_lt_zero _)⟩
  · intro records hrecords id r hr
    rw [List.mem_singleton.mp hrecords] at hr
    cases hr
  · intro inode hin
    cases hin
  · intro inode hin
    cases hin
  · rintro inode (hin | hin) <;> cases hin
  · intro j c hc
    cases hc
  · intro j c hc
    cases hc
  · intro i j c d hc
    cases hc

end steps

/-- What a reader of `flows.json` and the callers of the registry may rely on. -/
structure Persisted (decode : List UInt8 → Except String (List FlowRecord)) (s : Registry)
    (log : List Records) : Prop where
  -- with no call in progress the file loads as the records
  idle : (∀ c ∈ s.calls, c.stage.isDone = true) →
    ∃ loaded, s.disk.load decode none = .ok loaded ∧
      ∀ id, Dict.get? loaded id = Dict.get? s.records id
  -- every write is that of a call, and of none that has failed
  writers : ∀ k < log.length, ∃ c ∈ s.calls, c.wrote = some (k + 1)
  failed : ∀ c ∈ s.calls, ∀ e, c.stage = .done (.error e) → c.wrote = none
  -- the file is the records after some write, no earlier than those of returned calls
  kept : ∃ k records, (Dict.empty :: log)[k]? = some records ∧
    (∃ loaded, s.disk.load decode none = .ok loaded ∧
      ∀ id, Dict.get? loaded id = Dict.get? records id) ∧
    ∀ c ∈ s.calls, ∀ reply r, c.stage = .done (.ok reply) → c.wrote = some r → r ≤ k

theorem Stored.load {codec : Codec} {s : Registry} {log : List Records} (h : Stored codec s log)
    {decode : List UInt8 → Except String (List FlowRecord)}
    (hjson : ∀ records ∈ Dict.empty :: log,
      decode (codec.encode (sorted records)) = .ok (sorted records)) :
    ∃ records, (Dict.empty :: log)[s.published.revision]? = some records ∧
      ∃ loaded, s.disk.load decode none = .ok loaded ∧
        ∀ id, Dict.get? loaded id = Dict.get? records id := by
  obtain ⟨records, hget, hrec⟩ := h.published
  refine ⟨records, hget, ?_⟩
  have hmem := List.mem_of_getElem? hget
  cases hflows : s.disk.flows with
  | none =>
    rw [h.missing hflows] at hget
    cases hget
    have hbytes : s.disk.bytes? = none := by simp only [Disk.bytes?, hflows, Option.map_none]
    exact ⟨Dict.empty, by simp only [Disk.load, hbytes], fun _ => rfl⟩
  | some inode =>
    refine ⟨Dict.insertAll Dict.empty (sorted records) FlowRecord.id, ?_,
      get?_insertAll_sorted (h.keyed records hmem)⟩
    have hbytes : s.disk.bytes? = some (codec.encode (sorted records)) := by
      simp only [Disk.bytes?, hflows, Option.map_some, h.file inode hflows, hrec]
    simp only [Disk.load, hbytes, hjson records hmem]

/-- In every run in which no file operation fails and the saves do not overlap,
`flows.json` follows the records; `log` are the records after each write. -/
theorem registry_persisted (codec : Codec) (maxConcurrent : ℕ)
    (decode : List UInt8 → Except String (List FlowRecord)) {s : Registry} {log : List Records}
    (h : (registry codec).Logged PersistSound written (.create true maxConcurrent) s log)
    (hjson : ∀ records ∈ Dict.empty :: log,
      decode (codec.encode (sorted records)) = .ok (sorted records)) :
    Persisted decode s log := by
  have hsync : Synced codec s log :=
    h.invariant (create_synced codec maxConcurrent) fun _ _ _ _ hu hok hs => step_synced hu hok hs
  obtain ⟨records, hget, hload⟩ := hsync.stored.load hjson
  refine ⟨fun hidle => ?_, fun k hk => ?_, fun c hc e he => ?_, s.published.revision, records, hget, hload,
    fun c hc reply r hr => ?_⟩
  · have hle : s.revision ≤ s.published.revision := by
      rcases hsync.pending with hle | ⟨j, c, hc, hlate, _⟩
      · exact hle
      · have hdone := hidle c (List.mem_of_getElem? hc)
        rw [Stage.isDone_of_late hlate] at hdone
        cases hdone
    have hlt := (List.getElem?_eq_some_iff.mp hget).1
    rw [List.length_cons, hsync.stored.length] at hlt
    have heq : s.published.revision = s.revision := by omega
    have hlast := hsync.stored.last
    rw [← heq, hget, Option.some.injEq] at hlast
    rwa [← hlast]
  · obtain ⟨j, c, hc, hw⟩ := hsync.marked k (hsync.stored.length ▸ hk)
    exact ⟨c, List.mem_of_getElem? hc, hw⟩
  · obtain ⟨j, hj⟩ := List.mem_iff_getElem?.mp hc
    have hsaved := hsync.saved j c hj
    unfold Saved at hsaved
    rwa [he] at hsaved
  · obtain ⟨j, hj⟩ := List.mem_iff_getElem?.mp hc
    have hsaved := hsync.saved j c hj
    unfold Saved at hsaved
    rw [hr] at hsaved
    exact hsaved r

/-- What `create_draft` of `sampleFlow` makes. -/
def sampleRecord : FlowRecord where
  id := "registry-test"
  versions := [⟨1, .draft, sampleFlow, sampleCodec.checksum sampleFlow, 1, none, none, none, none⟩]
  activeVersion := none
  createdAt := 1
  updatedAt := 1

/-- The parser at the two texts of the run below. -/
def sampleDecode (bytes : List UInt8) : Except String (List FlowRecord) :=
  if bytes = sampleCodec.encode [] then .ok []
  else if bytes = sampleCodec.encode [sampleRecord] then .ok [sampleRecord]
  else .error "expected value at line 1 column 1"

theorem utf8_injective {a b : String} (h : a.toUTF8.data.toList = b.toUTF8.data.toList) : a = b :=
  String.toByteArray_inj.mp (ByteArray.ext (Array.toList_inj.mp h))

theorem sampleCodec_encode_ne (r : FlowRecord) : sampleCodec.encode [r] ≠ sampleCodec.encode [] := by
  intro h
  have htext := utf8_injective h
  simp only [List.map_cons, List.map_nil, Json.pretty, List.isEmpty_nil, List.isEmpty_cons,
    if_true, Bool.false_eq_true, if_false] at htext
  have hchars := congrArg String.toList htext
  simp only [String.toList_append] at hchars
  cases hchars

theorem registry_persisted_of_draft : ∃ s log, log.length = 1 ∧
    (∀ c ∈ s.calls, c.stage.isDone = true) ∧ Persisted sampleDecode s log := by
  refine ⟨_, _, ?_, ?_, registry_persisted sampleCodec 4 sampleDecode
    (.step (a := .advance 0 calm) (.step (a := .advance 0 calm) (.step (a := .advance 0 calm)
      (.step (a := .advance 0 calm) (.step (a := .advance 0 calm)
        (.step (a := .call (.createDraft sampleFlow none)) .refl ?_ rfl) ?_ rfl) ?_ rfl) ?_ rfl)
          ?_ rfl) ?_ rfl) ?_⟩
  · rfl
  · intro c hc
    rw [List.mem_singleton.mp hc]
    rfl
  · trivial
  · intro c hc
    cases hc
    trivial
  · intro c hc
    cases hc
    rfl
  · intro c hc
    cases hc
    refine ⟨rfl, fun d hd => ?_⟩
    rw [List.mem_singleton.mp hd]
    rfl
  · intro c hc
    cases hc
    rfl
  · intro c hc
    cases hc
    exact ⟨rfl, Nat.zero_le _⟩
  · intro records hrecords
    rcases List.mem_cons.mp hrecords with rfl | hrecords
    · have hsorted : sorted Dict.empty = [] := rfl
      rw [hsorted, sampleDecode, if_pos rfl]
    · have hsorted : sorted records = [sampleRecord] := by
        rw [List.mem_singleton.mp hrecords]
        rfl
      rw [hsorted, sampleDecode, if_neg (sampleCodec_encode_ne sampleRecord), if_pos rfl]

/-- A call whose file operation fails. -/
def failing : Input := ⟨1, none, some "No space left on device (os error 28)", 0⟩

/-- Of two drafts the second is saved, and then the older snapshot of the first
is put over it. -/
theorem draft_lost (encode : List FlowRecord → List UInt8) : ∃ s log,
    (registry { sampleCodec with encode := encode }).Logged (fun _ _ => True) written (.create true 4) s log ∧
      (∀ c ∈ s.calls, ∃ reply, c.stage = .done (.ok reply)) ∧
      (∃ records ∈ log, sorted records = [sampleRecord]) ∧
      s.disk.bytes? = some (encode [sampleRecord]) ∧
      ∃ r, Dict.get? s.records "registry-test" = some r ∧ r.versions.length = 2 := by
  refine ⟨_, _, .of_exec
    (List.flatten [[.call (.createDraft sampleFlow none), .call (.createDraft sampleFlow none)],
      List.replicate 2 (.advance 0 calm), List.replicate 5 (.advance 1 calm),
      List.replicate 3 (.advance 0 calm)]) .refl rfl, fun c hc => ?_,
    ⟨_, List.mem_cons_self, rfl⟩, ?_, ?_⟩
  · rcases List.mem_cons.mp hc with rfl | hc
    · exact ⟨_, rfl⟩
    · rw [List.mem_singleton.mp hc]
      exact ⟨_, rfl⟩
  · have hwhole : encode [sampleRecord] ++ List.drop (encode [sampleRecord]).length [] =
        encode [sampleRecord] := by rw [List.drop_nil, List.append_nil]
    exact congrArg some hwhole
  · exact ⟨_, rfl, rfl⟩

/-- A draft whose save fails is refused and stays in the records; and a draft
that was saved can be lost. -/
theorem registry_unpersisted :
    (∃ s log, (registry sampleCodec).Logged (fun _ _ => True) written (.create true 4) s log ∧
      (Dict.get? s.records "registry-test").isSome ∧
      (∀ c ∈ s.calls, ∃ e, c.stage = .done (.error e)) ∧
      ∀ decode, ¬ Persisted decode s log) ∧
    ∃ s log, (registry sampleCodec).Logged (fun _ _ => True) written (.create true 4) s log ∧
      (∀ c ∈ s.calls, ∃ reply, c.stage = .done (.ok reply)) ∧
      ∀ decode, (∀ records ∈ log,
        decode (sampleCodec.encode (sorted records)) = .ok (sorted records)) →
          ¬ Persisted decode s log := by
  constructor
  · refine ⟨_, _, .of_exec
      [.call (.createDraft sampleFlow none), .advance 0 calm, .advance 0 calm, .advance 0 failing]
      .refl rfl, rfl, fun c hc => ?_,
      fun decode h => ?_⟩
    · rw [List.mem_singleton.mp hc]
      exact ⟨_, rfl⟩
    · have hfailed := h.failed _ List.mem_cons_self _ rfl
      cases hfailed
  · obtain ⟨s, log, hrun, hok, ⟨records, hmem, hsorted⟩, hbytes, r, hr, hlen⟩ :=
      draft_lost sampleCodec.encode
    refine ⟨s, log, hrun, hok, fun decode hjson h => ?_⟩
    have hdone : ∀ c ∈ s.calls, c.stage.isDone = true := by
      intro c hc
      obtain ⟨reply, hreply⟩ := hok c hc
      rw [hreply]
      rfl
    obtain ⟨loaded, hload, hget⟩ := h.idle hdone
    have hdecode := hjson records hmem
    rw [hsorted] at hdecode
    simp only [Disk.load, hbytes, hdecode, Except.ok.injEq] at hload
    have hfound := hget "registry-test"
    rw [← hload, hr] at hfound
    cases Option.some.inj hfound
    cases hlen

end Jaiba.Server
