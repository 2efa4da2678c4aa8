import Jaiba.Memory.Freshness

/-!
# Removal

What is left of a key once `remove` has returned, over the lives of the process:
`remove` does not reach the deferred queue, and a tier whose removal fails keeps
its copy.
-/

namespace Jaiba.Memory
open Jaiba.Lib

/-- An operation on the memory, the end of the process among them. -/
inductive LifeOp where
  | memory (op : MemoryOp)
  | flush (now : ℕ)
  /-- the manager is dropped and opened again on the same backends and sink -/
  | reopen (now : ℕ)

namespace LifeOp

def run (policy : MemoryPolicy) (platform : Platform) (m : Manager) : LifeOp → Manager
  | .memory op => op.run policy platform m
  | .flush now => (m.flushDeferredAt platform now true).2
  | .reopen now =>
    { (m.flushDeferredAt platform now true).2 with
      hot := ⟨Dict.empty, policy.maxEntries, policy.maxHotBytes⟩
      deferred := ⟨OrderedDict.empty, policy.maxPendingDeferred⟩ }

/-- The key an operation writes. -/
def writes : LifeOp → Option String
  | .memory (.upsert key ..) => some key
  | _ => none

end LifeOp

/-- Histories of the memory, in which any call may fail. -/
def life (policy : MemoryPolicy) : Machine Manager (Platform × LifeOp) :=
  ⟨fun m a => some (a.2.run policy a.1 m)⟩

namespace Manager

/-- The records of a key that the sink has accepted. -/
def recordsOf (m : Manager) (key : String) : Option (List PersistRecord) :=
  m.sink.map fun accepted => accepted.filter fun r => r.key = key

/-- Until the next write of the key it is not read, its records are not
persisted and Cold has no copy of it. -/
def Gone (policy : MemoryPolicy) (m : Manager) (key : String) : Prop :=
  ∀ t, (life policy).Reach (fun _ a => a.2.writes ≠ some key) m t →
    (∀ platform now, (t.getAt policy platform key now).1 = none) ∧
      t.recordsOf key = m.recordsOf key ∧ t.copy .cold key = none

/-- The record waits in the deferred queue. -/
def Waits (m : Manager) (r : PersistRecord) : Prop :=
  ∃ e ∈ m.deferred.items.entries, e.2.record = r

/-- From `s` to `t` only records that waited in `s`, or that are `fresh`, were
persisted or queued. -/
structure Banks (s t : Manager) (fresh : PersistRecord → Prop) : Prop where
  sink : ∃ sent, t.sink = s.sink.map (fun accepted => accepted ++ sent) ∧
    ∀ r ∈ sent, s.Waits r ∨ fresh r
  queue : ∀ e ∈ t.deferred.items.entries, e ∈ s.deferred.items.entries ∨
    e.1 = e.2.record.key ∧ (s.Waits e.2.record ∨ fresh e.2.record)

section banks
variable {policy : MemoryPolicy} {platform : Platform} {s t u : Manager}
  {fresh : PersistRecord → Prop}

theorem Banks.of_same (hs : t.sink = s.sink) (hd : t.deferred = s.deferred) : Banks s t fresh where
  sink := ⟨[], by rw [hs]; cases s.sink <;> simp, by simp⟩
  queue := fun e he => .inl (hd ▸ he)

theorem Banks.waits (h : Banks s t fresh) {r : PersistRecord} (hr : t.Waits r) :
    s.Waits r ∨ fresh r := by
  obtain ⟨e, he, rfl⟩ := hr
  rcases h.queue e he with he | ⟨_, he⟩
  · exact .inl ⟨e, he, rfl⟩
  · exact he

theorem Banks.trans (h : Banks s t fresh) (h' : Banks t u fresh) : Banks s u fresh where
  sink := by
    obtain ⟨sent, hs, hsent⟩ := h.sink
    obtain ⟨sent', hs', hsent'⟩ := h'.sink
    refine ⟨sent ++ sent', ?_, fun r hr => ?_⟩
    · rw [hs', hs, Option.map_map]
      congr 1
      funext accepted
      exact List.append_assoc _ _ _
    · rcases List.mem_append.mp hr with hr | hr
      · exact hsent r hr
      · rcases hsent' r hr with hr | hr
        · exact h.waits hr
        · exact .inr hr
  queue := fun e he => by
    rcases h'.queue e he with he | ⟨hk, he | he⟩
    · exact h.queue e he
    · exact .inr ⟨hk, h.waits he⟩
    · exact .inr ⟨hk, .inr he⟩

theorem mem_requeueFailed {q : DeferredQueue} {records : List PersistRecord} {now : ℕ}
    {e : String × DeferredItem} (h : e ∈ (q.requeueFailed records now).items.entries) :
    e ∈ q.items.entries ∨ ∃ r ∈ records, e = (r.key, ⟨r, now, 0⟩) := by
  unfold DeferredQueue.requeueFailed at h
  simp only at h
  generalize q.items = items at h ⊢
  induction records generalizing items with
  | nil => exact .inl h
  | cons r records ih =>
    rw [List.foldl_cons] at h
    rcases ih _ h with he | ⟨r', hr', rfl⟩
    · rcases OrderedDict.mem_insert he with rfl | he
      · exact .inr ⟨r, List.mem_cons_self, rfl⟩
      · exact .inl he
    · exact .inr ⟨r', List.mem_cons_of_mem r hr', rfl⟩

theorem persistBatch_banks {accepted : List PersistRecord} {now written : ℕ}
    {records : List PersistRecord} (hs : s.sink = some accepted) (hd : t.deferred = s.deferred)
    (hr : ∀ r ∈ records, fresh r) :
    Banks s (t.persistBatch platform accepted now written records).2 fresh := by
  have hall : ∀ sent, (∀ r ∈ sent, fresh r) →
      Banks s (t.persistBatch platform (accepted ++ sent) now written records).2 fresh := by
    induction records generalizing written with
    | nil =>
      intro sent hsent
      exact ⟨⟨sent, by rw [hs]; rfl, fun r hr => .inr (hsent r hr)⟩, fun e he => .inl (hd ▸ he)⟩
    | cons r records ih =>
      intro sent hsent
      unfold persistBatch
      split
      · refine ⟨⟨sent, by rw [hs]; rfl, fun r hr => .inr (hsent r hr)⟩, fun e he => ?_⟩
        rcases mem_requeueFailed he with he | ⟨r', hr', rfl⟩
        · exact .inl (hd ▸ he)
        · exact .inr ⟨rfl, .inr (hr r' hr')⟩
      · rw [List.append_assoc]
        refine ih (fun r' hr' => hr r' (List.mem_cons_of_mem r hr')) (sent ++ [r]) fun r' hr' => ?_
        rcases List.mem_append.mp hr' with hr' | hr'
        · exact hsent r' hr'
        · rw [List.mem_singleton.mp hr']
          exact hr r List.mem_cons_self
  have hnil := hall [] (by simp)
  rwa [List.append_nil] at hnil

/-- A flush persists and puts back what waited. -/
theorem flush_banks (fresh : PersistRecord → Prop) (platform : Platform) (s : Manager) (now : ℕ)
    (force : Bool) : Banks s (s.flushDeferredAt platform now force).2 fresh := by
  have hbatch : ∀ r ∈ (s.deferred.takeReady now force).1, s.Waits r := by
    intro r hr
    obtain ⟨e, he, rfl⟩ := List.mem_map.mp hr
    exact ⟨e, (List.mem_filter.mp he).1, rfl⟩
  have hkept : Banks s { s with deferred := (s.deferred.takeReady now force).2 } fresh :=
    ⟨⟨[], by cases s.sink <;> simp, by simp⟩, fun e he => .inl (List.mem_filter.mp he).1⟩
  unfold flushDeferredAt
  simp only
  split_ifs
  · exact hkept
  · split
    · exact hkept
    next accepted hs =>
      have hsent : Banks { s with deferred := (s.deferred.takeReady now force).2 }
          (persistBatch platform { s with deferred := (s.deferred.takeReady now force).2 } accepted
            now 0 (s.deferred.takeReady now force).1).2 s.Waits :=
        persistBatch_banks hs rfl hbatch
      obtain ⟨sent, hsink, hall⟩ := hsent.sink
      refine ⟨⟨sent, hsink, fun r hr => ?_⟩, fun e he => ?_⟩
      · rcases hall r hr with hr | hr
        · exact hkept.waits hr
        · exact .inl hr
      · rcases hsent.queue e he with he | ⟨hk, he | he⟩
        · exact hkept.queue e he
        · exact .inr ⟨hk, hkept.waits he⟩
        · exact .inr ⟨hk, .inl he⟩

theorem demoteVictims_same (policy : MemoryPolicy) (platform : Platform) (s : Manager)
    (victims : List HotItem) : (s.demoteVictims policy platform victims).2.sink = s.sink ∧
      (s.demoteVictims policy platform victims).2.deferred = s.deferred := by
  have h := demoteVictims_demoted policy platform s victims
  exact ⟨h.sink, h.deferred⟩

theorem enterHot_banks (policy : MemoryPolicy) (platform : Platform) (s : Manager) (key : String)
    (value : Value) {c : ClassPolicy} (now : ℕ)
    (hfresh : c.policy.requiresPersistSink = true →
      fresh ⟨key, c.name, value, c.policy, c.priority⟩) :
    Banks s (s.enterHot policy platform key value c now).2 fresh := by
  by_cases hnow : c.policy = .immediate ∨ c.policy = .persistent
  · have hsink : c.policy.requiresPersistSink = true := by
      rcases hnow with hpol | hpol <;> rw [hpol] <;> rfl
    rw [enterHot_now policy platform s key value now hnow]
    split
    · exact .of_same rfl rfl
    next prepared _ =>
      have hsame := demoteVictims_same policy platform s prepared.victims
      split <;> rename_i ht <;> rw [ht] at hsame
      · exact .of_same hsame.1 hsame.2
      next t =>
        split <;> rename_i hu
        · rw [persistNow_error hu]
          exact .of_same hsame.1 hsame.2
        · obtain ⟨accepted, ha, rfl⟩ := persistNow_ok hu
          refine ⟨⟨[⟨key, c.name, value, c.policy, c.priority⟩], ?_, fun r hr => ?_⟩, fun e he =>
            .inl (hsame.2 ▸ he)⟩
          · rw [← hsame.1]
            simp only [ha, Option.map_some]
          · rw [List.mem_singleton.mp hr]
            exact .inr (hfresh hsink)
  · have hhot := hotUpsert_admitted policy platform s key value c now
    rw [enterHot_later policy platform s key value now hnow]
    exact .of_same hhot.2 hhot.1.deferred

theorem settle_banks (policy : MemoryPolicy) (platform : Platform) (s : Manager) (key : String)
    (value : Value) {c : ClassPolicy} (now : ℕ)
    (hfresh : c.policy.requiresPersistSink = true →
      fresh ⟨key, c.name, value, c.policy, c.priority⟩) :
    Banks s (s.settle policy platform key value c now).2 fresh := by
  unfold settle
  split
  · exact .of_same rfl rfl
  · exact .of_same rfl rfl
  next hpol =>
    have hqueue : Banks s { s with deferred := (s.deferred.enqueue
        ⟨key, c.name, value, c.policy, c.priority⟩ (c.flush.getD 0) now).2 } fresh := by
      refine ⟨⟨[], by cases s.sink <;> simp, by simp⟩, fun e he => ?_⟩
      rcases OrderedDict.mem_insert he with rfl | he
      · exact .inr ⟨rfl, .inr (hfresh (by rw [hpol]; rfl))⟩
      · exact .inl he
    have hflush := hqueue.trans (flush_banks fresh platform _ now (s.deferred.enqueue
      ⟨key, c.name, value, c.policy, c.priority⟩ (c.flush.getD 0) now).1)
    simp only
    split <;> rename_i ht <;> rw [ht] at hflush <;> exact hflush
  · have hflush := flush_banks fresh platform s now false
    split <;> rename_i ht <;> rw [ht] at hflush <;> exact hflush
  · have hmirror : Banks s (if c.mirrorsWarm then s.tierPut policy platform .warm key ⟨c.name, value⟩
        else (.ok (), s)).2 fresh := by
      split_ifs
      · have hw := tierPut_wrote policy platform s .warm key ⟨c.name, value⟩
        exact .of_same hw.sink hw.deferred
      · exact .of_same rfl rfl
    split <;> rename_i ht <;> rw [ht] at hmirror
    · exact hmirror
    next t =>
      have hflush := hmirror.trans (flush_banks fresh platform t now false)
      split <;> rename_i hu <;> rw [hu] at hflush <;> exact hflush

/-- A write persists and queues its own record, if its class asks for the sink. -/
theorem upsertAt_banks (policy : MemoryPolicy) (platform : Platform) (s : Manager) (key : String)
    (value : Value) (className : String) (now : ℕ) :
    Banks s (s.upsertAt policy platform key value className now).2
      fun r => r.key = key ∧ policy.requiresPersistSink = true := by
  unfold upsertAt
  split
  · exact .of_same rfl rfl
  next c hc =>
    have hfresh : c.policy.requiresPersistSink = true →
        key = key ∧ policy.requiresPersistSink = true := fun hreq => ⟨rfl, class?_requires hc hreq⟩
    have henter : Banks s (s.enterHot policy platform key value c now).2
        fun r => r.key = key ∧ policy.requiresPersistSink = true :=
      enterHot_banks policy platform s key value now hfresh
    split <;> rename_i ht <;> rw [ht] at henter
    · exact henter
    next t =>
      have hsettle := henter.trans (settle_banks policy platform t key value now hfresh)
      unfold publish
      split <;> rename_i hu <;> rw [hu] at hsettle
      · exact hsettle
      next u =>
        refine hsettle.trans ?_
        unfold archive
        split_ifs
        · have hw := tierPut_wrote policy platform u .frozen key ⟨c.name, value⟩
          exact .of_same hw.sink hw.deferred
        · exact .of_same rfl rfl

theorem promoteFrom_banks (policy : MemoryPolicy) (platform : Platform) (s : Manager) (tier : Tier)
    (key : String) (now : ℕ) : Banks s (s.promoteFrom policy platform tier key now).2 fresh := by
  unfold promoteFrom
  split
  · exact .of_same rfl rfl
  next entry _ =>
    obtain ⟨_, _, hsink, hdef, _⟩ := promote_spec policy platform s key entry now
    exact .of_same hsink hdef

theorem getAt_banks (policy : MemoryPolicy) (platform : Platform) (s : Manager) (key : String)
    (now : ℕ) : Banks s (s.getAt policy platform key now).2 fresh := by
  have hflush := flush_banks fresh platform s now false
  have hhot : ∀ hot, Banks s { (s.flushDeferredAt platform now false).2 with hot := hot } fresh :=
    fun hot => hflush.trans (.of_same rfl rfl)
  unfold getAt
  simp only
  split
  · exact hhot _
  next hot _ =>
    have hwarm := (hhot hot).trans (promoteFrom_banks policy platform _ .warm key now)
    split <;> rename_i ht <;> rw [ht] at hwarm
    · exact hwarm
    next t =>
      have hcold := hwarm.trans (promoteFrom_banks policy platform t .cold key now)
      split <;> rename_i hu <;> rw [hu] at hcold
      · exact hcold
      next u => exact hcold.trans (promoteFrom_banks policy platform u .frozen key now)

theorem notifyPressure_banks (policy : MemoryPolicy) (platform : Platform) (s : Manager) (now : ℕ) :
    Banks s (s.notifyPressure policy platform now).2 fresh := by
  have hflush := flush_banks fresh platform s now true
  unfold notifyPressure
  split <;> rename_i ht <;> rw [ht] at hflush
  · exact hflush
  next n t =>
    split
    · exact hflush.trans (.of_same rfl rfl)
    next key entry hot _ =>
      have hw := demoteOrDrop_wrote policy platform { t with hot := hot } key entry
      split <;> rename_i hu <;> rw [hu] at hw
      all_goals exact hflush.trans (.of_same hw.sink hw.deferred)

theorem poll_banks (policy : MemoryPolicy) (platform : Platform) (s : Manager) (now : ℕ) :
    Banks s (s.poll policy platform now).2 fresh := by
  have hflush := flush_banks fresh platform s now false
  unfold poll
  split <;> rename_i ht <;> rw [ht] at hflush
  · exact hflush
  next n t =>
    have hd := applyDemotions_frame policy platform (t.hot.reclaimIdle platform.order now 64).1
      { t with hot := (t.hot.reclaimIdle platform.order now 64).2 }
    refine hflush.trans ?_
    unfold demoteIdleAt
    simp only
    split <;> rename_i hu <;> rw [hu] at hd <;> exact .of_same hd.1 hd.2

/-- The Hot entry goes, and every copy whose removal does not fail. -/
theorem remove_spec (platform : Platform) (s : Manager) (key k : String) :
    ((s.remove platform key).2.hot.get? k = if k = key then none else s.hot.get? k) ∧
    (∀ T, (s.remove platform key).2.copy T k =
      if k = key ∧ platform.fault (.remove T key) = none then none else s.copy T k) ∧
    (s.remove platform key).2.sink = s.sink ∧
    (s.remove platform key).2.deferred = s.deferred := by
  have hone : ∀ (m : Manager) (tier : Tier), (m.tierRemove platform tier key).2.hot = m.hot ∧
      (∀ T, (m.tierRemove platform tier key).2.copy T k =
        if T = tier ∧ k = key ∧ platform.fault (.remove tier key) = none then none
        else m.copy T k) ∧
      (m.tierRemove platform tier key).2.sink = m.sink ∧
      (m.tierRemove platform tier key).2.deferred = m.deferred := by
    intro m tier
    unfold tierRemove
    cases hf : platform.fault (.remove tier key) with
    | some e => exact ⟨rfl, fun T => by simp, rfl, rfl⟩
    | none =>
      refine ⟨rfl, fun T => ?_, rfl, rfl⟩
      by_cases hT : T = tier
      · subst hT
        simp only [copy, Function.update_self, Dict.get?_erase, true_and, and_true]
      · simp only [copy, Function.update_of_ne hT, hT, false_and, if_false]
  obtain ⟨hhotw, hcopyw, hsinkw, hdefw⟩ := hone { s with hot := (s.hot.remove key).2 } .warm
  obtain ⟨hhotc, hcopyc, hsinkc, hdefc⟩ :=
    hone ({ s with hot := (s.hot.remove key).2 }.tierRemove platform .warm key).2 .cold
  obtain ⟨hhotf, hcopyf, hsinkf, hdeff⟩ :=
    hone (({ s with hot := (s.hot.remove key).2 }.tierRemove platform .warm key).2.tierRemove
      platform .cold key).2 .frozen
  refine ⟨?_, fun T => ?_, (hsinkf.trans hsinkc).trans hsinkw, (hdeff.trans hdefc).trans hdefw⟩
  · have hhot := (hhotf.trans hhotc).trans hhotw
    unfold remove
    simp only [hhot]
    exact HotStore.get?_remove key k
  · unfold remove
    simp only [hcopyf, hcopyc, hcopyw]
    cases T <;> simp [copy]

theorem run_banks (policy : MemoryPolicy) (platform : Platform) (m : Manager) (op : LifeOp) :
    Banks m (op.run policy platform m) fun r =>
      some r.key = op.writes ∧ policy.requiresPersistSink = true := by
  cases op with
  | memory op =>
    cases op with
    | upsert key value className now =>
      have h := upsertAt_banks policy platform m key value className now
      simp only [LifeOp.run, MemoryOp.run, LifeOp.writes, Option.some.injEq]
      exact h
    | get key now => exact getAt_banks policy platform m key now
    | remove key =>
      obtain ⟨_, _, hsink, hdef⟩ := remove_spec platform m key key
      exact .of_same hsink hdef
    | notifyPressure now => exact notifyPressure_banks policy platform m now
    | poll now => exact poll_banks policy platform m now
  | flush now => exact flush_banks _ platform m now true
  | reopen now =>
    have hflush := flush_banks (fun r => some r.key = (LifeOp.reopen now).writes ∧
      policy.requiresPersistSink = true) platform m now true
    exact ⟨hflush.sink, fun e he => by cases he⟩

end banks

/-! ### Keys without a trace -/

section lost
variable {policy : MemoryPolicy} {platform : Platform} {s t : Manager} {k : String}

/-- No tier has the key. -/
structure Lost (s : Manager) (k : String) : Prop where
  hot : s.hot.get? k = none
  copies : ∀ T, s.copy T k = none

theorem Effect.lost {now : ℕ} (h : Effect policy s t now k) (hl : Lost s k) : Lost t k where
  hot := by
    rcases h.hot with hh | hh | ⟨hh, _⟩
    · rw [hh, hl.hot]
    · rw [hh, hl.hot]
      rfl
    · exact hh
  copies := fun T => by
    rcases h.copies T with hc | ⟨e, he, _⟩
    · rw [hc, hl.copies]
    · rw [hl.hot] at he
      cases he

theorem promoteFrom_lost (policy : MemoryPolicy) (platform : Platform) (hl : Lost s k)
    (tier : Tier) (key : String) (now : ℕ) :
    Lost (s.promoteFrom policy platform tier key now).2 k ∧
      (key = k → (s.promoteFrom policy platform tier key now).1 = none) := by
  unfold promoteFrom tierGet
  cases platform.fault (.get tier key) with
  | some e => exact ⟨hl, fun _ => rfl⟩
  | none =>
    cases hcopy : Dict.get? (s.tiers tier) key with
    | none => exact ⟨hl, fun _ => rfl⟩
    | some entry =>
      have hne : k ≠ key := by
        rintro rfl
        have hnone := hl.copies tier
        rw [copy, hcopy] at hnone
        cases hnone
      exact ⟨((promote_spec policy platform s key entry now).1 k hne).lost hl,
        fun he => absurd he.symm hne⟩

/-- A read finds nothing of a key that no tier has, and keeps it so. -/
theorem getAt_lost (hl : Lost s k) (key : String) (now : ℕ) :
    Lost (s.getAt policy platform key now).2 k ∧
      (key = k → (s.getAt policy platform key now).1 = none) := by
  have htouched := touched_get? platform s key now k
  rw [hl.hot, Option.filter_none, Option.map_none] at htouched
  have hlt : Lost (touched platform s key now) k :=
    ⟨htouched, fun T => (touched_copy platform s key now T k).trans (hl.copies T)⟩
  unfold getAt
  simp only
  split
  next value hot hget =>
    have hread := (HotStore.get_spec (s.flushDeferredAt platform now false).2.hot key now).1
    rw [touched, hget] at hlt
    refine ⟨hlt, fun he => ?_⟩
    rw [hget, (flush_frame platform s now false).1, he, hl.hot] at hread
    cases hread
  next hot hget =>
    rw [touched, hget] at hlt
    obtain ⟨hw, hwnone⟩ := promoteFrom_lost policy platform hlt .warm key now
    split <;> rename_i ht <;> rw [ht] at hw hwnone
    · exact ⟨hw, hwnone⟩
    next t =>
      obtain ⟨hc, hcnone⟩ := promoteFrom_lost policy platform hw .cold key now
      split <;> rename_i hu <;> rw [hu] at hc hcnone
      · exact ⟨hc, hcnone⟩
      next u => exact promoteFrom_lost policy platform hc .frozen key now

theorem run_lost (op : LifeOp) (hl : Lost s k) (hw : op.writes ≠ some k) :
    Lost (op.run policy platform s) k := by
  cases op with
  | memory op =>
    cases op with
    | upsert key value className now =>
      have hne : k ≠ key := fun he => hw (congrArg some he.symm)
      exact (upsertAt_effect s key value className now hne).lost hl
    | get key now => exact (getAt_lost hl key now).1
    | remove key =>
      obtain ⟨hhot, hcopy, _, _⟩ := remove_spec platform s key k
      refine ⟨?_, fun T => ?_⟩
      · rw [LifeOp.run, MemoryOp.run, hhot, hl.hot, ite_self]
      · rw [LifeOp.run, MemoryOp.run, hcopy, hl.copies, ite_self]
    | notifyPressure now => exact (notifyPressure_effect s now k).lost hl
    | poll now => exact (poll_effect s now k).lost hl
  | flush now =>
    exact ⟨by rw [LifeOp.run, (flush_frame platform s now true).1]; exact hl.hot,
      fun T => (flush_copy s now true T k).trans (hl.copies T)⟩
  | reopen now =>
    exact ⟨rfl, fun T => (flush_copy s now true T k).trans (hl.copies T)⟩

end lost

/-! ### Histories -/

section histories
variable {policy : MemoryPolicy} {m s t : Manager} {k : String}

/-- What every history keeps: a queued record is under its own key, and nothing
waits without a sink. -/
structure Queued (policy : MemoryPolicy) (s : Manager) : Prop where
  banked : Banked policy s
  keys : ∀ e ∈ s.deferred.items.entries, e.1 = e.2.record.key

theorem create_queued {sink : Bool} (h : create policy sink = .ok m) : Queued policy m where
  banked := create_banked h
  keys := fun e he => by
    unfold create at h
    split at h <;> cases h
    cases he

theorem Queued.run (h : Queued policy s) (platform : Platform) (op : LifeOp) :
    Queued policy (op.run policy platform s) := by
  have hbanks := run_banks policy platform s op
  obtain ⟨sent, hsink, _⟩ := hbanks.sink
  refine ⟨⟨fun hreq => ?_, fun hnone => ?_⟩, fun e he => ?_⟩
  · rw [hsink, Option.isSome_map]
    exact h.banked.sink hreq
  · rw [hsink, Option.map_eq_none_iff] at hnone
    have hempty := h.banked.waiting hnone
    refine List.eq_nil_iff_forall_not_mem.mpr fun e he => ?_
    rcases hbanks.queue e he with he | ⟨_, ⟨e', he', _⟩ | ⟨_, hreq⟩⟩
    · rw [hempty] at he
      cases he
    · rw [hempty] at he'
      cases he'
    · have hsome := h.banked.sink hreq
      rw [hnone] at hsome
      cases hsome
  · rcases hbanks.queue e he with he | ⟨hk, _⟩
    · exact h.keys e he
    · exact hk

theorem reachable_queued {sink : Bool} (hm : create policy sink = .ok m)
    (h : (life policy).Reachable m s) : Queued policy s := by
  refine h.invariant (create_queued hm) fun s a t hi _ hs => ?_
  cases Option.some.inj hs
  exact hi.run a.1 a.2

/-- Neither a tier nor the queue has the key. -/
structure Cleared (s : Manager) (k : String) : Prop where
  lost : Lost s k
  queue : ∀ r, s.Waits r → r.key ≠ k

theorem Cleared.run (h : Cleared s k) (policy : MemoryPolicy) (platform : Platform) {op : LifeOp}
    (hw : op.writes ≠ some k) : Cleared (op.run policy platform s) k ∧
      (op.run policy platform s).recordsOf k = s.recordsOf k := by
  have hbanks := run_banks policy platform s op
  have hother : ∀ r, s.Waits r ∨ some r.key = op.writes ∧ policy.requiresPersistSink = true →
      r.key ≠ k := by
    rintro r (hr | ⟨hr, _⟩)
    · exact h.queue r hr
    · rintro rfl
      exact hw hr.symm
  refine ⟨⟨run_lost op h.lost hw, fun r hr => hother r (hbanks.waits hr)⟩, ?_⟩
  obtain ⟨sent, hsink, hsent⟩ := hbanks.sink
  have hnil : sent.filter (fun r => r.key = k) = [] := by
    refine List.filter_eq_nil_iff.mpr fun r hr => ?_
    rw [decide_eq_true_eq]
    exact hother r (hsent r hr)
  rw [recordsOf, hsink, Option.map_map, recordsOf]
  congr 1
  funext accepted
  rw [Function.comp_apply, List.filter_append, hnil, List.append_nil]

theorem Cleared.gone (h : Cleared s k) : Gone policy s k := by
  intro t ht
  have hinv : Cleared t k ∧ t.recordsOf k = s.recordsOf k := by
    refine ht.invariant (I := fun t => Cleared t k ∧ t.recordsOf k = s.recordsOf k) ⟨h, rfl⟩
      fun u a v hu hw hs => ?_
    cases Option.some.inj hs
    obtain ⟨hc, hr⟩ := hu.1.run policy a.1 hw
    exact ⟨hc, hr.trans hu.2⟩
  exact ⟨fun platform now => (getAt_lost hinv.1.lost k now).2 rfl, hinv.2, hinv.1.lost.copies .cold⟩

theorem persistBatch_sink (order : IterOrder) (s : Manager) (accepted : List PersistRecord)
    (now written : ℕ) (records : List PersistRecord) :
    (s.persistBatch (.reliable order) accepted now written records).2.sink =
      some (accepted ++ records) := by
  induction records generalizing accepted written with
  | nil => rw [List.append_nil]; rfl
  | cons r records ih =>
    unfold persistBatch
    simp only [Platform.reliable]
    rw [← Platform.reliable, ih, List.append_assoc, List.singleton_append]

/-- A record that waits reaches the sink with the next forced flush. -/
theorem flush_delivers (order : IterOrder) {accepted : List PersistRecord} {r : PersistRecord}
    (hs : s.sink = some accepted) (hr : s.Waits r) (now : ℕ) :
    ∃ sent, (s.flushDeferredAt (.reliable order) now true).2.sink = some (accepted ++ sent) ∧
      r ∈ sent := by
  obtain ⟨e, he, rfl⟩ := hr
  have hmem : e.2.record ∈ (s.deferred.takeReady now true).1 :=
    List.mem_map.mpr ⟨e, List.mem_filter.mpr ⟨he, rfl⟩, rfl⟩
  refine ⟨(s.deferred.takeReady now true).1, ?_, hmem⟩
  unfold flushDeferredAt
  simp only
  split_ifs with hempty
  · rw [List.isEmpty_iff.mp hempty] at hmem
    cases hmem
  · simp only [hs]
    exact persistBatch_sink order _ accepted now 0 _

end histories

end Manager

section removal
open Manager

end removal

/-- A deferred class. -/
def tickClass : ClassPolicy where
  name := "ticks"
  policy := .deferred
  temperature := .hot
  ttl := none
  flush := some 10
  priority := .normal
  demoteAfter := none

def tickPolicy : MemoryPolicy where
  maxEntries := 2
  maxHotBytes := 1024
  maxPendingDeferred := 8
  backends := ⟨false, false, false⟩
  classes := ⟨[tickClass], by decide⟩
  accepted := by
    intro c hc
    obtain rfl := List.mem_singleton.mp hc
    constructor <;> simp [tickClass]
  maxEntries_pos := Nat.two_pos
  maxHotBytes_pos := sampleBytes_pos
  maxPendingDeferred_pos := samplePending_pos

/-- Cold does not remove. -/
def coldFault : Platform where
  order := .asStored
  fault
    | .remove .cold _ => some (.cold "disk I/O error")
    | _ => none

end Jaiba.Memory
