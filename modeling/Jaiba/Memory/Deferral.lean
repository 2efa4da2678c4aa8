import Jaiba.Lib.Outbox
import Jaiba.Memory.Atomicity
import Jaiba.Memory.Removal

/-!
# Deferral

The deferred queue and the sink of a running manager are a coalescing outbox:
what the queue holds under a key is the newest record enqueued for it, and the
sink accepts the records of a key in the order they were enqueued, whatever
writes fail.
-/

namespace Jaiba.Memory
open Jaiba.Lib

namespace DeferredQueue

variable {q q' : DeferredQueue} {records : List PersistRecord} {now : ℕ} {k : String}

/-- The record that waits under a key. -/
def waiting (q : DeferredQueue) (k : String) : Option PersistRecord :=
  (q.items.get? k).map DeferredItem.record

/-- Every record is under its own key. -/
def Keyed (q : DeferredQueue) : Prop := ∀ e ∈ q.items.entries, e.1 = e.2.record.key

theorem waiting_insert (q : DeferredQueue) (item : DeferredItem) (key k : String) :
    waiting { q with items := q.items.insert key item } k =
      if k = key then some item.record else q.waiting k := by
  rw [waiting, OrderedDict.get?_insert]
  split
  · rfl
  · rfl

theorem waiting_enqueue (q : DeferredQueue) (r : PersistRecord) (flushAfter now : ℕ) (k : String) :
    (q.enqueue r flushAfter now).2.waiting k = if k = r.key then some r else q.waiting k :=
  waiting_insert q ⟨r, now, flushAfter⟩ r.key k

theorem requeueFailed_cons (q : DeferredQueue) (r : PersistRecord) (records : List PersistRecord)
    (now : ℕ) : q.requeueFailed (r :: records) now =
      requeueFailed { q with items := q.items.insert r.key ⟨r, now, 0⟩ } records now := rfl

theorem waiting_requeue_congr (h : q.waiting k = q'.waiting k) :
    (q.requeueFailed records now).waiting k = (q'.requeueFailed records now).waiting k := by
  induction records generalizing q q' with
  | nil => exact h
  | cons r records ih =>
    rw [requeueFailed_cons, requeueFailed_cons]
    refine ih ?_
    rw [waiting_insert, waiting_insert, h]

theorem waiting_requeue_absent (h : k ∉ records.map PersistRecord.key) :
    (q.requeueFailed records now).waiting k = q.waiting k := by
  induction records generalizing q with
  | nil => rfl
  | cons r records ih =>
    rw [List.map_cons, List.mem_cons, not_or] at h
    rw [requeueFailed_cons, ih h.2, waiting_insert, if_neg h.1]

theorem waiting_requeue_mem {r : PersistRecord} (hr : r ∈ records)
    (hnodup : (records.map PersistRecord.key).Nodup) :
    (q.requeueFailed records now).waiting r.key = some r := by
  induction records generalizing q with
  | nil => cases hr
  | cons x records ih =>
    rw [List.map_cons, List.nodup_cons] at hnodup
    rw [requeueFailed_cons]
    rcases List.mem_cons.mp hr with rfl | hr
    · rw [waiting_requeue_absent hnodup.1, waiting_insert, if_pos rfl]
    · exact ih hr hnodup.2

theorem Keyed.insert (h : q.Keyed) (r : PersistRecord) (flushAfter now : ℕ) :
    Keyed { q with items := q.items.insert r.key ⟨r, now, flushAfter⟩ } := by
  intro e he
  rcases OrderedDict.mem_insert he with rfl | he
  · rfl
  · exact h e he

theorem Keyed.requeue (h : q.Keyed) (records : List PersistRecord) (now : ℕ) :
    (q.requeueFailed records now).Keyed := by
  intro e he
  rcases Manager.mem_requeueFailed he with he | ⟨r, _, rfl⟩
  · exact h e he
  · rfl

/-- What `take_ready` takes out and leaves: the keys taken are free afterwards,
and putting all of it back restores every record. -/
structure Split (q : DeferredQueue) (batch : List PersistRecord) (rest : DeferredQueue) : Prop where
  keyed : rest.Keyed
  nodup : (batch.map PersistRecord.key).Nodup
  vacant : ∀ r ∈ batch, rest.waiting r.key = none
  restored : ∀ now k, (rest.requeueFailed batch now).waiting k = q.waiting k

theorem takeReady_split (h : q.Keyed) (now : ℕ) (force : Bool) :
    q.Split (q.takeReady now force).1 (q.takeReady now force).2 := by
  have hkeys : (q.takeReady now force).1.map PersistRecord.key =
      (q.items.entries.filter fun e => force || ready e.2 now).map Prod.fst := by
    rw [takeReady, List.map_map]
    refine List.map_congr_left fun e he => ?_
    exact (h e (List.mem_filter.mp he).1).symm
  have hnodup : ((q.takeReady now force).1.map PersistRecord.key).Nodup := by
    rw [hkeys]
    exact q.items.nodup_keys.sublist (List.filter_sublist.map _)
  have hrest : ∀ e, e ∈ (q.takeReady now force).2.items.entries ↔
      e ∈ q.items.entries ∧ (force || ready e.2 now) = false := by
    intro e
    rw [takeReady, OrderedDict.retain, List.mem_filter, Bool.not_eq_true']
  have hvacant : ∀ r ∈ (q.takeReady now force).1, (q.takeReady now force).2.waiting r.key = none := by
    intro r hr
    obtain ⟨e, he, rfl⟩ := List.mem_map.mp hr
    obtain ⟨he, htaken⟩ := List.mem_filter.mp he
    rw [waiting, Option.map_eq_none_iff, OrderedDict.get?_none_iff]
    intro e' he' hkey
    obtain ⟨he', hkept⟩ := (hrest e').mp he'
    have hget := OrderedDict.get?_of_mem he
    have hget' := OrderedDict.get?_of_mem he'
    rw [hkey, ← h e he, hget] at hget'
    rw [← Option.some.inj hget', htaken] at hkept
    cases hkept
  refine ⟨fun e he => h e ((hrest e).mp he).1, hnodup, hvacant, fun later k => ?_⟩
  by_cases hk : k ∈ (q.takeReady now force).1.map PersistRecord.key
  · obtain ⟨r, hr, rfl⟩ := List.mem_map.mp hk
    rw [waiting_requeue_mem hr hnodup]
    obtain ⟨e, he, rfl⟩ := List.mem_map.mp hr
    have hmem := (List.mem_filter.mp he).1
    rw [waiting, ← h e hmem, OrderedDict.get?_of_mem hmem]
    rfl
  · rw [waiting_requeue_absent hk, waiting, waiting]
    cases hq : q.items.get? k with
    | none =>
      rw [OrderedDict.get?_none_iff.mpr fun e he => OrderedDict.get?_none_iff.mp hq e
        ((hrest e).mp he).1]
    | some item =>
      have hmem := OrderedDict.mem_of_get? hq
      have hkept : (force || ready item now) = false := by
        refine Bool.eq_false_iff.mpr fun htaken => hk ?_
        rw [hkeys]
        exact List.mem_map_of_mem (List.mem_filter.mpr ⟨hmem, htaken⟩)
      rw [OrderedDict.get?_of_mem ((hrest (k, item)).mpr ⟨hmem, hkept⟩)]

end DeferredQueue

namespace Manager

variable {policy : MemoryPolicy} {platform : Platform} {s t u : Manager}
  {o : Outbox String PersistRecord}

/-- The records the sink has accepted from the queue. -/
def flushed (m : Manager) : List PersistRecord :=
  (m.sink.getD []).filter fun r => r.policy = .deferred

/-- The queue and the sink hold what the outbox says. -/
structure Matches (m : Manager) (o : Outbox String PersistRecord) : Prop where
  keyed : m.deferred.Keyed
  sinked : Sinked m
  logged : ∀ r ∈ o.log, r.policy = .deferred
  waiting : ∀ k, m.deferred.waiting k = (o.pending k).bind fun i => o.log[i]?
  flushed : List.Forall₂ (fun i r => o.log[i]? = some r) o.accepted m.flushed
  sound : o.Sound PersistRecord.key

theorem Matches.of_same (h : Matches s o) (hq : t.deferred = s.deferred)
    (hf : t.flushed = s.flushed) (hs : t.sink = none → s.sink = none) : Matches t o where
  keyed := hq ▸ h.keyed
  sinked := fun hn => by
    rw [hq]
    exact h.sinked (hs hn)
  logged := h.logged
  waiting := fun k => by rw [hq, h.waiting]
  flushed := hf ▸ h.flushed
  sound := h.sound

/-- The records go out, one after the other. -/
def acceptAll (o : Outbox String PersistRecord) (records : List PersistRecord) :
    Outbox String PersistRecord :=
  records.foldl (fun o r => o.accept r.key) o

/-- From `s` to `t` the sink accepted records of the outbox. -/
def Settles (s t : Manager) (o : Outbox String PersistRecord) : Prop :=
  ∃ sent, t.flushed = s.flushed ++ sent ∧ Matches t (acceptAll o sent)

theorem Settles.of_same (h : Matches s o) (hq : t.deferred = s.deferred)
    (hf : t.flushed = s.flushed) (hs : t.sink = none → s.sink = none) : Settles s t o :=
  ⟨[], by rw [hf, List.append_nil], h.of_same hq hf hs⟩

theorem Settles.after (h : Settles t u o) (hf : t.flushed = s.flushed) : Settles s u o := by
  obtain ⟨sent, hsent, hm⟩ := h
  exact ⟨sent, hf ▸ hsent, hm⟩

theorem Settles.before (h : Settles s t o) (hq : u.deferred = t.deferred) (hk : u.sink = t.sink) :
    Settles s u o := by
  obtain ⟨sent, hsent, hm⟩ := h
  have hf : u.flushed = t.flushed := by rw [Manager.flushed, hk, Manager.flushed]
  exact ⟨sent, hf.trans hsent, hm.of_same hq hf fun hn => hk ▸ hn⟩

/-- The sink accepts the first of the records in hand. -/
theorem Matches.accept {r : PersistRecord} {records accepted : List PersistRecord} {now : ℕ}
    (h : Matches { s with
      sink := some accepted
      deferred := s.deferred.requeueFailed (r :: records) now } o)
    (hkeyed : s.deferred.Keyed) (hnodup : ((r :: records).map PersistRecord.key).Nodup)
    (hvacant : s.deferred.waiting r.key = none) :
    r.policy = .deferred ∧ Matches { s with
      sink := some (accepted ++ [r])
      deferred := s.deferred.requeueFailed records now } (o.accept r.key) := by
  have hr := h.waiting r.key
  rw [DeferredQueue.waiting_requeue_mem List.mem_cons_self hnodup] at hr
  obtain ⟨i, hi, hlog⟩ := Option.bind_eq_some_iff.mp hr.symm
  have hpol := h.logged r (List.mem_of_getElem? hlog)
  rw [List.map_cons, List.nodup_cons] at hnodup
  refine ⟨hpol, hkeyed.requeue records now, fun hn => (by cases hn), ?_, fun k => ?_, ?_,
    h.sound.accept r.key⟩
  · rw [Outbox.log_accept]
    exact h.logged
  · rw [Outbox.log_accept]
    by_cases hk : k = r.key
    · rw [hk, DeferredQueue.waiting_requeue_absent hnodup.1, hvacant, Outbox.pending_accept_self hi]
      rfl
    · have hother := h.waiting k
      rw [DeferredQueue.requeueFailed_cons] at hother
      rw [Outbox.pending_accept_of_ne hk, ← hother]
      refine DeferredQueue.waiting_requeue_congr ?_
      rw [DeferredQueue.waiting_insert, if_neg hk]
  · rw [Outbox.log_accept, Outbox.accepted_accept hi]
    have hone : Manager.flushed { s with
        sink := some (accepted ++ [r])
        deferred := s.deferred.requeueFailed records now } =
        accepted.filter (fun r => r.policy = .deferred) ++ [r] := by
      simp [Manager.flushed, List.filter_append, hpol]
    rw [hone]
    exact List.rel_append h.flushed (.cons hlog .nil)

theorem persistBatch_settles (platform : Platform) {accepted : List PersistRecord}
    (now written : ℕ) {records : List PersistRecord} (hkeyed : s.deferred.Keyed)
    (hnodup : (records.map PersistRecord.key).Nodup)
    (hvacant : ∀ r ∈ records, s.deferred.waiting r.key = none)
    (h : Matches { s with
      sink := some accepted
      deferred := s.deferred.requeueFailed records now } o) :
    Settles { s with sink := some accepted }
      (s.persistBatch platform accepted now written records).2 o := by
  induction records generalizing accepted written o with
  | nil => exact ⟨[], (List.append_nil _).symm, h⟩
  | cons r records ih =>
    unfold persistBatch
    split
    · exact ⟨[], (List.append_nil _).symm, h⟩
    · obtain ⟨hpol, hnext⟩ := h.accept hkeyed hnodup (hvacant r List.mem_cons_self)
      rw [List.map_cons, List.nodup_cons] at hnodup
      obtain ⟨sent, hsent, hm⟩ := ih (written + 1) hnodup.2
        (fun r' hr' => hvacant r' (List.mem_cons_of_mem r hr')) hnext
      refine ⟨r :: sent, hsent.trans ?_, hm⟩
      simp [Manager.flushed, List.filter_append, hpol]

/-- A flush lets out records that wait, and puts back what fails. -/
theorem flush_settles (platform : Platform) (h : Matches s o) (now : ℕ) (force : Bool) :
    Settles s (s.flushDeferredAt platform now force).2 o := by
  have hsplit := DeferredQueue.takeReady_split h.keyed now force
  unfold flushDeferredAt
  simp only
  split_ifs with hempty
  · have hsame := DeferredQueue.takeReady_nil (List.isEmpty_iff.mp hempty)
    rw [hsame]
    exact .of_same h rfl rfl id
  · split
    next hs =>
      rw [(takeReady_entries (h.sinked hs) now force).1] at hempty
      exact absurd rfl hempty
    next accepted hs =>
      have hhand : Matches { s with
          sink := some accepted
          deferred := (s.deferred.takeReady now force).2.requeueFailed
            (s.deferred.takeReady now force).1 now } o := by
        refine ⟨hsplit.keyed.requeue _ now, fun hn => (by cases hn), h.logged, fun k => ?_, ?_,
          h.sound⟩
        · rw [hsplit.restored now k, h.waiting]
        · have hf := h.flushed
          rwa [Manager.flushed, hs] at hf
      have hsent : Settles { s with
          sink := some accepted
          deferred := (s.deferred.takeReady now force).2 }
          (persistBatch platform { s with deferred := (s.deferred.takeReady now force).2 } accepted
            now 0 (s.deferred.takeReady now force).1).2 o :=
        persistBatch_settles platform now 0 hsplit.keyed hsplit.nodup hsplit.vacant hhand
      refine hsent.after ?_
      rw [Manager.flushed, Manager.flushed, hs]

/-- Before its commit a write leaves the queue alone; a record it persists at
once is not one of the queue. -/
theorem enterHot_bank (policy : MemoryPolicy) (platform : Platform) (s : Manager) (key : String)
    (value : Value) (c : ClassPolicy) (now : ℕ) :
    (s.enterHot policy platform key value c now).2.deferred = s.deferred ∧
      (s.enterHot policy platform key value c now).2.flushed = s.flushed ∧
      ((s.enterHot policy platform key value c now).2.sink = none → s.sink = none) := by
  by_cases hnow : c.policy = .immediate ∨ c.policy = .persistent
  · have hlater : c.policy ≠ .deferred := by
      rcases hnow with hpol | hpol <;> rw [hpol] <;> decide
    rw [enterHot_now policy platform s key value now hnow]
    split
    · exact ⟨rfl, rfl, id⟩
    next prepared _ =>
      have hsame := demoteVictims_same policy platform s prepared.victims
      split <;> rename_i ht <;> rw [ht] at hsame
      · exact ⟨hsame.2, by rw [flushed, hsame.1, flushed], fun hn => hsame.1 ▸ hn⟩
      next t =>
        split <;> rename_i hu
        · rw [persistNow_error hu]
          exact ⟨hsame.2, by rw [flushed, hsame.1, flushed], fun hn => hsame.1 ▸ hn⟩
        · obtain ⟨accepted, ha, rfl⟩ := persistNow_ok hu
          refine ⟨hsame.2, ?_, fun hn => (by cases hn)⟩
          have hs : s.sink = some accepted := hsame.1.symm.trans ha
          simp [flushed, hs, List.filter_append, hlater]
  · have hhot := hotUpsert_admitted policy platform s key value c now
    rw [enterHot_later policy platform s key value now hnow]
    exact ⟨hhot.1.deferred, by rw [flushed, hhot.2, flushed], fun hn => hhot.2 ▸ hn⟩

/-- What `upsert_at` puts into the queue. -/
def enqueuedBy (policy : MemoryPolicy) (platform : Platform) (s : Manager) (key : String)
    (value : Value) (className : String) (now : ℕ) : Option PersistRecord :=
  match policy.class? className with
  | .error _ => none
  | .ok c =>
    if c.policy = .deferred ∧ (s.enterHot policy platform key value c now).1.isOk then
      some (recordOf key value c)
    else none

/-- The outbox with a record enqueued, if there is one. -/
def enqueueAll (o : Outbox String PersistRecord) (r : Option PersistRecord) :
    Outbox String PersistRecord :=
  (r.map (o.enqueue PersistRecord.key)).getD o

theorem Matches.enqueue {r : PersistRecord} (h : Matches s o) (hr : r.policy = .deferred)
    (hsink : s.sink.isSome) (flushAfter now : ℕ) :
    Matches { s with deferred := (s.deferred.enqueue r flushAfter now).2 }
      (o.enqueue PersistRecord.key r) where
  keyed := h.keyed.insert r flushAfter now
  sinked := fun hn => by
    have hn : s.sink = none := hn
    rw [hn] at hsink
    cases hsink
  logged := fun r' hr' => by
    rcases List.mem_append.mp hr' with hr' | hr'
    · exact h.logged r' hr'
    · rw [List.mem_singleton.mp hr', hr]
  waiting := fun k => by
    rw [DeferredQueue.waiting_enqueue]
    by_cases hk : k = r.key
    · rw [if_pos hk, hk, Outbox.pending_enqueue_self, Option.bind_some, Outbox.enqueue,
        List.getElem?_concat_length]
    · rw [if_neg hk, Outbox.pending_enqueue_of_ne hk, h.waiting k]
      cases hp : o.pending k with
      | none => rfl
      | some i =>
        obtain ⟨r', hr', _⟩ := (h.sound.newest k i hp).record
        rw [Option.bind_some, Option.bind_some, hr', Outbox.log_enqueue_of_some hr']
  flushed := h.flushed.imp fun i r' hr' => Outbox.log_enqueue_of_some hr'
  sound := h.sound.enqueue r

/-- The queue and the sink after the commit of a write. -/
theorem settle_settles (policy : MemoryPolicy) (platform : Platform) (h : Matches s o) (key : String)
    (value : Value) {c : ClassPolicy} (now : ℕ) (hsink : c.policy.requiresPersistSink = true → s.sink.isSome) :
    Settles s (s.settle policy platform key value c now).2
      (enqueueAll o (if c.policy = .deferred then some (recordOf key value c) else none)) := by
  have hplain : c.policy ≠ .deferred →
      enqueueAll o (if c.policy = .deferred then some (recordOf key value c) else none) = o := by
    intro hne
    rw [if_neg hne]
    rfl
  have hflush := flush_settles platform h now false
  cases hpol : c.policy with
  | immediate | persistent =>
    rw [hpol] at hplain
    rw [hplain (by decide), settle, hpol]
    exact .of_same h rfl rfl id
  | deferred =>
    have hdue : recordOf key value c = ⟨key, c.name, value, .deferred, c.priority⟩ := by
      rw [recordOf, hpol]
    have hq := h.enqueue (r := recordOf key value c) hpol (hsink (by rw [hpol]; rfl))
      (c.flush.getD 0) now
    have hall := flush_settles platform hq now (s.deferred.enqueue (recordOf key value c)
      (c.flush.getD 0) now).1
    rw [hdue] at hq hall
    rw [if_pos rfl, hdue, settle, hpol]
    simp only
    split <;> rename_i ht <;> rw [ht] at hall <;> exact hall.after rfl
  | volatile =>
    rw [hpol] at hplain
    rw [hplain (by decide), settle, hpol]
    simp only
    split <;> rename_i ht <;> rw [ht] at hflush <;> exact hflush
  | cache =>
    have hmirror : (if c.mirrorsWarm then s.tierPut policy platform .warm key ⟨c.name, value⟩
        else (.ok (), s)).2.deferred = s.deferred ∧
        (if c.mirrorsWarm then s.tierPut policy platform .warm key ⟨c.name, value⟩
        else (.ok (), s)).2.sink = s.sink := by
      split_ifs
      · have hw := tierPut_wrote policy platform s .warm key ⟨c.name, value⟩
        exact ⟨hw.deferred, hw.sink⟩
      · exact ⟨rfl, rfl⟩
    rw [hpol] at hplain
    rw [hplain (by decide), settle, hpol]
    simp only
    split <;> rename_i ht <;> rw [ht] at hmirror
    · exact .of_same h hmirror.1 (by rw [flushed, hmirror.2, flushed]) fun hn => hmirror.2 ▸ hn
    next t =>
      have hf : t.flushed = s.flushed := by rw [flushed, hmirror.2, flushed]
      have hm : Matches t o := h.of_same hmirror.1 hf fun hn => hmirror.2 ▸ hn
      have hlast := (flush_settles platform hm now false).after hf
      split <;> rename_i hu <;> rw [hu] at hlast <;> exact hlast

/-- A write enqueues its record, if it is deferred and enters Hot. -/
theorem upsertAt_settles (platform : Platform) (h : Matches s o) (hb : Banked policy s)
    (key : String) (value : Value) (className : String) (now : ℕ) :
    Settles s (s.upsertAt policy platform key value className now).2
      (enqueueAll o (s.enqueuedBy policy platform key value className now)) := by
  unfold upsertAt enqueuedBy
  cases hc : policy.class? className with
  | error e => exact .of_same h rfl rfl id
  | ok c =>
    obtain ⟨hq, hf, hs⟩ := enterHot_bank policy platform s key value c now
    simp only
    cases ht : s.enterHot policy platform key value c now with
    | mk result t =>
      rw [ht] at hq hf hs
      cases result with
      | error e =>
        rw [if_neg (by simp [Except.isOk, Except.toBool])]
        exact .of_same h hq hf hs
      | ok _ =>
        have hm : Matches t o := h.of_same hq hf hs
        have hsink : c.policy.requiresPersistSink = true → t.sink.isSome := fun hreq => by
          rw [Option.isSome_iff_ne_none]
          intro hn
          have hsome := hb.sink (class?_requires hc hreq)
          rw [hs hn] at hsome
          cases hsome
        have hsettle := (settle_settles policy platform hm key value now hsink).after
          hf
        have hsame : (if c.policy = .deferred ∧ (Except.ok () : Except MemoryError Unit).isOk then
            some (recordOf key value c) else none) =
            if c.policy = .deferred then some (recordOf key value c) else none := by
          simp [Except.isOk, Except.toBool]
        simp only [hsame]
        unfold publish
        split <;> rename_i hu <;> rw [hu] at hsettle
        · exact hsettle
        next u =>
          by_cases harch : c.archivesFrozen = true
          · have hw := tierPut_wrote policy platform u .frozen key ⟨c.name, value⟩
            rw [archive, if_pos harch]
            exact hsettle.before hw.deferred hw.sink
          · rw [archive, if_neg harch]
            exact hsettle

theorem promoteFrom_bank (policy : MemoryPolicy) (platform : Platform) (s : Manager) (tier : Tier)
    (key : String) (now : ℕ) :
    (s.promoteFrom policy platform tier key now).2.deferred = s.deferred ∧
      (s.promoteFrom policy platform tier key now).2.sink = s.sink := by
  unfold promoteFrom
  split
  · exact ⟨rfl, rfl⟩
  next entry _ =>
    obtain ⟨_, _, hsink, hdef, _⟩ := promote_spec policy platform s key entry now
    exact ⟨hdef, hsink⟩

theorem getAt_settles (platform : Platform) (h : Matches s o) (key : String) (now : ℕ) :
    Settles s (s.getAt policy platform key now).2 o := by
  have hflush := flush_settles platform h now false
  have hhot : ∀ hot, Settles s { (s.flushDeferredAt platform now false).2 with hot := hot } o :=
    fun hot => hflush.before rfl rfl
  unfold getAt
  simp only
  split
  · exact hhot _
  next hot _ =>
    have hw := promoteFrom_bank policy platform
      { (s.flushDeferredAt platform now false).2 with hot := hot } .warm key now
    have hwarm := (hhot hot).before hw.1 hw.2
    split <;> rename_i ht <;> rw [ht] at hwarm
    · exact hwarm
    next t =>
      have hc := promoteFrom_bank policy platform t .cold key now
      have hcold := hwarm.before hc.1 hc.2
      split <;> rename_i hu <;> rw [hu] at hcold
      · exact hcold
      next u =>
        have hf := promoteFrom_bank policy platform u .frozen key now
        exact hcold.before hf.1 hf.2

theorem notifyPressure_settles (platform : Platform) (h : Matches s o) (now : ℕ) :
    Settles s (s.notifyPressure policy platform now).2 o := by
  have hflush := flush_settles platform h now true
  unfold notifyPressure
  split <;> rename_i ht <;> rw [ht] at hflush
  · exact hflush
  next n t =>
    split
    · exact hflush.before rfl rfl
    next key entry hot _ =>
      have hw := demoteOrDrop_wrote policy platform { t with hot := hot } key entry
      split <;> rename_i hu <;> rw [hu] at hw
      all_goals exact hflush.before hw.deferred hw.sink

theorem poll_settles (platform : Platform) (h : Matches s o) (now : ℕ) :
    Settles s (s.poll policy platform now).2 o := by
  have hflush := flush_settles platform h now false
  unfold poll
  split <;> rename_i ht <;> rw [ht] at hflush
  · exact hflush
  next n t =>
    have hd := applyDemotions_frame policy platform (t.hot.reclaimIdle platform.order now 64).1
      { t with hot := (t.hot.reclaimIdle platform.order now 64).2 }
    unfold demoteIdleAt
    simp only
    split <;> rename_i hu <;> rw [hu] at hd <;> exact hflush.before hd.2 hd.1

end Manager

/-! ### Runs -/

namespace LifeOp

/-- What an operation puts into the queue of `s`. -/
def enqueued (policy : MemoryPolicy) (platform : Platform) (s : Manager) :
    LifeOp → Option PersistRecord
  | .memory (.upsert key value className now) =>
    s.enqueuedBy policy platform key value className now
  | _ => none

/-- A process that ends takes its queue with it. -/
def continues : LifeOp → Bool
  | .reopen _ => false
  | _ => true

theorem run_settles {policy : MemoryPolicy} {s : Manager} {o : Outbox String PersistRecord}
    (platform : Platform) (h : s.Matches o) (hb : s.Banked policy) {op : LifeOp}
    (hop : op.continues = true) :
    s.Settles (op.run policy platform s) (Manager.enqueueAll o (op.enqueued policy platform s)) := by
  cases op with
  | memory op =>
    cases op with
    | upsert key value className now =>
      exact Manager.upsertAt_settles platform h hb key value className now
    | get key now => exact Manager.getAt_settles platform h key now
    | remove key =>
      obtain ⟨_, _, hsink, hdef⟩ := Manager.remove_spec platform s key key
      refine .of_same h hdef ?_ fun hn => ?_
      · rw [Manager.flushed, run, MemoryOp.run, hsink, Manager.flushed]
      · rwa [run, MemoryOp.run, hsink] at hn
    | notifyPressure now => exact Manager.notifyPressure_settles platform h now
    | poll now => exact Manager.poll_settles platform h now
  | flush now => exact Manager.flush_settles platform h now true
  | reopen now => cases hop

end LifeOp

/-- A running manager, beside it everything it enqueued and the numbers of what
the sink accepted of it. -/
structure Deferral where
  manager : Manager
  outbox : Outbox String PersistRecord

namespace Deferral
open Manager

/-- The outbox enqueues what the operation enqueued, and lets out under its key
whatever the sink accepted of the queue during the operation. -/
def step (policy : MemoryPolicy) (d : Deferral) (a : Platform × LifeOp) : Option Deferral :=
  if a.2.continues then
    let m := a.2.run policy a.1 d.manager
    some ⟨m, acceptAll (enqueueAll d.outbox (a.2.enqueued policy a.1 d.manager))
      (m.flushed.drop d.manager.flushed.length)⟩
  else none

/-- The runs of one process, in which any call may fail. -/
def machine (policy : MemoryPolicy) : Machine Deferral (Platform × LifeOp) := ⟨step policy⟩

structure InOrder (d : Deferral) : Prop where
  /-- the newest record of a key waits, or the sink has accepted it -/
  kept : ∀ k i, d.outbox.Newest PersistRecord.key k i →
    i ∈ d.outbox.accepted ∨ d.manager.deferred.waiting k = d.outbox.log[i]?
  /-- what waits under a key is its newest record and was not accepted before: no
  record put back has taken the place of a newer one -/
  newest : ∀ k r, d.manager.deferred.waiting k = some r → ∃ i,
    d.outbox.Newest PersistRecord.key k i ∧ d.outbox.log[i]? = some r ∧ i ∉ d.outbox.accepted
  /-- what a flush takes out may be put back: nothing waits under its keys -/
  vacant : ∀ now force, ∀ r ∈ (d.manager.deferred.takeReady now force).1,
    (d.manager.deferred.takeReady now force).2.waiting r.key = none
  /-- the sink has accepted the records of these numbers -/
  accepted : List.Forall₂ (fun i r => d.outbox.log[i]? = some r) d.outbox.accepted
    d.manager.flushed
  /-- the records of one key in the order in which they were enqueued -/
  increasing : d.outbox.accepted.Pairwise fun i j => ∀ r r', d.outbox.log[i]? = some r →
    d.outbox.log[j]? = some r' → r.key = r'.key → i < j

theorem inOrder_of_matches {d : Deferral} (h : d.manager.Matches d.outbox) : d.InOrder where
  kept := fun k i hi => by
    rcases h.sound.kept k i hi with hp | hm
    · exact .inr (by rw [h.waiting, hp, Option.bind_some])
    · exact .inl hm
  newest := fun k r hr => by
    rw [h.waiting] at hr
    obtain ⟨i, hi, hlog⟩ := Option.bind_eq_some_iff.mp hr
    exact ⟨i, h.sound.newest k i hi, hlog, h.sound.fresh k i hi⟩
  vacant := fun now force => (DeferredQueue.takeReady_split h.keyed now force).vacant
  accepted := h.flushed
  increasing := h.sound.ordered

theorem create_matches {policy : MemoryPolicy} {sink : Bool} {m : Manager}
    (h : Manager.create policy sink = .ok m) : m.Matches .empty := by
  have hbanked := create_banked h
  unfold create at h
  split at h
  · cases h
  cases h
  refine ⟨fun e he => (by cases he), hbanked.waiting, fun r hr => absurd hr List.not_mem_nil,
    fun k => rfl, ?_, Outbox.sound_empty⟩
  cases sink <;> exact .nil

/-- In every run of a process, whatever fails, the queue and the sink keep the
newest record of every key and never go back to an older one. -/
theorem deferred_in_order {policy : MemoryPolicy} {sink : Bool} {m : Manager}
    (hm : Manager.create policy sink = .ok m) {d : Deferral}
    (h : (machine policy).Reachable ⟨m, .empty⟩ d) : d.InOrder := by
  have hinv : d.manager.Matches d.outbox ∧ d.manager.Queued policy := by
    refine Machine.Reach.invariant
      (I := fun d : Deferral => d.manager.Matches d.outbox ∧ d.manager.Queued policy) h
      ⟨create_matches hm, create_queued hm⟩ fun s a t hi _ hs => ?_
    obtain ⟨hop, hs⟩ := Option.ite_none_right_eq_some.mp hs
    cases hs
    obtain ⟨sent, hsent, hmatch⟩ := LifeOp.run_settles a.1 hi.1 hi.2.banked hop
    refine ⟨?_, hi.2.run a.1 a.2⟩
    simp only [hsent, List.drop_left]
    exact hmatch
  exact inOrder_of_matches hinv.1

/-- The sink refuses the first record of a key, accepts the second that took its
place, refuses the third and accepts it from the next flush. -/
def refusals : List (Platform × LifeOp) :=
  [(.reliable .asStored, .memory (.upsert "o-1" one "orders" 0)),
    (sinkFails "o-1", .memory (.poll 20)),
    (.reliable .asStored, .memory (.upsert "o-1" two "orders" 30)),
    (.reliable .asStored, .memory (.poll 50)),
    (.reliable .asStored, .memory (.upsert "o-1" one "orders" 60)),
    (sinkFails "o-1", .flush 61),
    (.reliable .asStored, .memory (.get "o-1" 62))]

theorem deferred_in_order_refusals : ∃ m d, Manager.create sinkPolicy true = .ok m ∧
    (machine sinkPolicy).exec ⟨m, .empty⟩ refusals = some d ∧ d.outbox.accepted = [1, 2] ∧
    d.InOrder := by
  refine ⟨_, _, rfl, rfl, by decide +kernel, ?_⟩
  exact @deferred_in_order sinkPolicy true _ rfl _ (.of_exec refusals rfl fun _ _ _ => trivial)

end Deferral

end Jaiba.Memory
