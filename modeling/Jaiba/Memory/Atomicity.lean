import Jaiba.Memory.Freshness

/-!
# Atomicity of writes

`upsert_at` commits to Hot in the middle of its external calls. What fails
before the commit leaves nothing behind; what fails after it is reported as an
error of a write that reads already see.
-/

namespace Jaiba.Memory
open Jaiba.Lib

namespace Manager

variable (policy : MemoryPolicy) (platform : Platform)

/-- The record an upsert sends to the sink or to the deferred queue. -/
def recordOf (key : String) (value : Value) (c : ClassPolicy) : PersistRecord :=
  ⟨key, c.name, value, c.policy, c.priority⟩

/-- The write reaches its commit to Hot: there is room for it, its victims are
demoted and, for immediate and persistent classes, the sink takes it. -/
def Commits (s : Manager) (key : String) (value : Value) (c : ClassPolicy) (now : ℕ) : Prop :=
  ∃ prepared, s.hot.prepareUpsert platform.order key value c now = .ok prepared ∧
    (s.demoteVictims policy platform prepared.victims).1 = .ok () ∧
    (c.policy = .immediate ∨ c.policy = .persistent →
      s.sink.isSome ∧ platform.fault (.persist key) = none)

/-- The deferred records that an upsert flushes after its commit. -/
def flushedAfter (s : Manager) (key : String) (value : Value) (c : ClassPolicy) (now : ℕ) :
    List PersistRecord :=
  match c.policy with
  | .immediate | .persistent => []
  | .deferred =>
    let (force, deferred) := s.deferred.enqueue (recordOf key value c) (c.flush.getD 0) now
    (deferred.takeReady now force).1
  | .volatile | .cache => (s.deferred.takeReady now false).1

/-- No external call after the commit fails. -/
structure LateCallsOk (s : Manager) (key : String) (value : Value) (c : ClassPolicy) (now : ℕ) :
    Prop where
  flush : ∀ r ∈ s.flushedAfter key value c now,
    s.sink.isSome ∧ platform.fault (.persist r.key) = none
  mirror : c.mirrorsWarm = true → policy.backends.warm = true →
    platform.fault (.put .warm key) = none
  archive : c.archivesFrozen = true → policy.backends.frozen = true →
    platform.fault (.put .frozen key) = none

/-- An upsert that returns an error has changed nothing that a reader, the
deferred queue or the sink can tell; and the failure of an unrelated record is
not the error of a write that Hot has committed. -/
structure Atomic (s : Manager) (key : String) (value : Value) (className : String) (now : ℕ) :
    Prop where
  read : ∀ e, (s.upsertAt policy platform key value className now).1 = .error e →
    ∀ later now', ((s.upsertAt policy platform key value className now).2.getAt policy later
      key now').1 = (s.getAt policy later key now').1
  deferred : ∀ e, (s.upsertAt policy platform key value className now).1 = .error e →
    (s.upsertAt policy platform key value className now).2.deferred = s.deferred
  sink : ∀ e, (s.upsertAt policy platform key value className now).1 = .error e →
    (s.upsertAt policy platform key value className now).2.sink = s.sink
  unrelated : ∀ c, policy.class? className = .ok c → s.Commits policy platform key value c now →
    ∀ r ∈ s.flushedAfter key value c now, r.key ≠ key →
      ∀ e, platform.fault (.persist r.key) = some e →
        (s.upsertAt policy platform key value className now).1 ≠ .error e

variable {policy platform} {s t : Manager}

/-! ### Reads under any faults -/

/-- What a read returns: a live Hot entry, else the first copy it can reach. -/
theorem getAt_fst (later : Platform) (s : Manager) (key : String) (now : ℕ) :
    (s.getAt policy later key now).1 =
      (((s.hot.get? key).filter fun e => e.live now).map HotEntry.value).or
        ((((s.tierGet later .warm key).or (s.tierGet later .cold key)).or
          (s.tierGet later .frozen key)).map TierEntry.value) := by
  have hflush := flush_frame later s now false
  have hval := (HotStore.get_spec (s.flushDeferredAt later now false).2.hot key now).1
  rw [hflush.1] at hval
  have htier : ∀ hot T, Manager.tierGet later
      { (s.flushDeferredAt later now false).2 with hot := hot } T key = s.tierGet later T key := by
    intro hot T
    simp only [tierGet, hflush.2]
  unfold getAt
  simp only
  split
  next value hot hg =>
    rw [← hval, ← hflush.1, hg]
    rfl
  next hot hg =>
    rw [← hval, ← hflush.1, hg]
    simp only [promoteFrom, htier]
    cases hw : s.tierGet later .warm key with
    | some x => rfl
    | none =>
      simp only [htier]
      cases hc : s.tierGet later .cold key with
      | some x => rfl
      | none =>
        simp only [htier]
        cases hf : s.tierGet later .frozen key <;> rfl

theorem getAt_congr (later : Platform) {key : String} (hhot : t.hot = s.hot)
    (hcopy : ∀ T, t.copy T key = s.copy T key) (now : ℕ) :
    (t.getAt policy later key now).1 = (s.getAt policy later key now).1 := by
  have htier : ∀ T, t.tierGet later T key = s.tierGet later T key := by
    intro T
    have h : Dict.get? (t.tiers T) key = Dict.get? (s.tiers T) key := hcopy T
    simp only [tierGet, h]
  rw [getAt_fst, getAt_fst, hhot, htier, htier, htier]

/-! ### Before the commit -/

theorem enterHot_ok_iff {key : String} {value : Value} {c : ClassPolicy} {now : ℕ} :
    (s.enterHot policy platform key value c now).1 = .ok () ↔
      s.Commits policy platform key value c now := by
  have hpersist : ∀ u : Manager, u.sink = s.sink →
      ((u.persistNow platform (recordOf key value c)).1 = .ok () ↔
        s.sink.isSome ∧ platform.fault (.persist key) = none) := by
    intro u hu
    unfold persistNow recordOf
    rw [hu]
    cases s.sink with
    | none => simp
    | some accepted => cases platform.fault (.persist key) <;> simp
  unfold Commits
  by_cases hp : c.policy = .immediate ∨ c.policy = .persistent
  · rw [enterHot_now policy platform s key value now hp]
    cases hprep : s.hot.prepareUpsert platform.order key value c now with
    | error e => simp
    | ok prepared =>
      have hd := demoteVictims_demoted policy platform s prepared.victims
      cases hdem : s.demoteVictims policy platform prepared.victims with
      | mk r u =>
        rw [hdem] at hd
        cases r with
        | error e => simp [hdem]
        | ok _ =>
          have hpu := hpersist u hd.sink
          unfold recordOf at hpu
          cases hres : u.persistNow platform ⟨key, c.name, value, c.policy, c.priority⟩ with
          | mk r' u' =>
            rw [hres] at hpu
            cases r' with
            | error e => simpa [hdem, hp, hres] using hpu
            | ok _ => simpa [hdem, hp, hres] using hpu
  · rw [enterHot_later policy platform s key value now hp]
    unfold hotUpsert
    cases hprep : s.hot.prepareUpsert platform.order key value c now with
    | error e => simp
    | ok prepared =>
      cases hdem : s.demoteVictims policy platform prepared.victims with
      | mk r u => cases r <;> simp [hdem, hp]

/-- A write refused before its commit has reached neither Hot nor the sink. -/
theorem enterHot_error {key : String} {value : Value} {c : ClassPolicy} {now : ℕ}
    {e : MemoryError} (h : (s.enterHot policy platform key value c now).1 = .error e) :
    (s.enterHot policy platform key value c now).2.sink = s.sink := by
  unfold enterHot at h ⊢
  split at h
  iterate 2
    · split at h
      · rfl
      next prepared hp =>
        have hd := demoteVictims_demoted policy platform s prepared.victims
        split at h
        next e' u hu =>
          rw [hu] at hd
          exact hd.sink
        next u hu =>
          rw [hu] at hd
          split at h
          next e' w hw =>
            cases persistNow_error hw
            exact hd.sink
          next w hw => cases h
  all_goals exact (hotUpsert_admitted policy platform s key value c now).2

/-! ### After the commit -/

theorem persistBatch_ok_iff (s : Manager) (accepted : List PersistRecord) (now written : ℕ)
    (records : List PersistRecord) :
    (∃ n, (s.persistBatch platform accepted now written records).1 = .ok n) ↔
      ∀ r ∈ records, platform.fault (.persist r.key) = none := by
  induction records generalizing accepted written with
  | nil => simp [persistBatch]
  | cons r records ih =>
    unfold persistBatch
    cases hr : platform.fault (.persist r.key) with
    | some e => simp [hr]
    | none => simpa [hr] using ih (accepted ++ [r]) (written + 1)

theorem flush_ok_iff (s : Manager) (now : ℕ) (force : Bool) :
    (∃ n, (s.flushDeferredAt platform now force).1 = .ok n) ↔
      ∀ r ∈ (s.deferred.takeReady now force).1,
        s.sink.isSome ∧ platform.fault (.persist r.key) = none := by
  unfold flushDeferredAt
  simp only
  split_ifs with hb
  · rw [List.isEmpty_iff] at hb
    simp [hb]
  · obtain ⟨r, hr⟩ := List.exists_mem_of_ne_nil _ (by simpa [List.isEmpty_iff] using hb)
    split
    next hs =>
      refine ⟨fun ⟨_, h⟩ => (by cases h), fun h => ?_⟩
      have hsome := (h r hr).1
      rw [hs] at hsome
      cases hsome
    next accepted hs =>
      rw [persistBatch_ok_iff]
      simp [hs]

theorem tierPut_ok_iff (policy : MemoryPolicy) (platform : Platform) (s : Manager) {tier : Tier} (hT : tier ≠ .cold) (key : String)
    (entry : TierEntry) : (s.tierPut policy platform tier key entry).1 = .ok () ↔
      (policy.backends.enabled tier = true → platform.fault (.put tier key) = none) := by
  unfold tierPut
  cases hen : policy.backends.enabled tier with
  | false => simp
  | true =>
    rw [classClash_none hT]
    cases platform.fault (.put tier key) <;> simp

/-- The result of `flush_deferred_at(..)?` in the middle of an upsert. -/
theorem flush_then_ok_iff (platform : Platform) (s : Manager) (now : ℕ) (force : Bool) :
    (match s.flushDeferredAt platform now force with
      | (.error e, t) => ((.error e, t) : Outcome Unit)
      | (.ok _, t) => (.ok (), t)).1 = .ok () ↔
      ∀ r ∈ (s.deferred.takeReady now force).1,
        s.sink.isSome ∧ platform.fault (.persist r.key) = none := by
  rw [← flush_ok_iff]
  cases s.flushDeferredAt platform now force with
  | mk r t => cases r <;> simp

theorem settle_ok_iff (policy : MemoryPolicy) (platform : Platform) (s : Manager) (key : String) (value : Value) (c : ClassPolicy) (now : ℕ) :
    (s.settle policy platform key value c now).1 = .ok () ↔
      (∀ r ∈ s.flushedAfter key value c now,
        s.sink.isSome ∧ platform.fault (.persist r.key) = none) ∧
      (c.mirrorsWarm = true → policy.backends.warm = true →
        platform.fault (.put .warm key) = none) := by
  have hwarm : c.policy ≠ .cache → c.mirrorsWarm = false := fun hp => by
    simp [ClassPolicy.mirrorsWarm, hp]
  unfold settle flushedAfter
  cases hp : c.policy with
  | immediate => simp [hwarm (by simp [hp])]
  | persistent => simp [hwarm (by simp [hp])]
  | deferred =>
    simp only [hwarm (by simp [hp]), recordOf, hp, Bool.false_eq_true, false_implies, and_true]
    exact flush_then_ok_iff platform _ now _
  | volatile =>
    simp only [hwarm (by simp [hp]), Bool.false_eq_true, false_implies, and_true]
    exact flush_then_ok_iff platform s now false
  | cache =>
    simp only
    by_cases hm : c.mirrorsWarm = true
    · simp only [hm, if_true, forall_const]
      have hw := tierPut_wrote policy platform s .warm key ⟨c.name, value⟩
      have hput := tierPut_ok_iff policy platform s
        (show Tier.warm ≠ .cold by simp) key ⟨c.name, value⟩
      cases hres : s.tierPut policy platform .warm key ⟨c.name, value⟩ with
      | mk r t =>
        rw [hres] at hw hput
        cases r with
        | error e =>
          simp only [reduceCtorEq, false_iff] at hput ⊢
          exact fun h => hput h.2
        | ok _ =>
          have hflush := flush_then_ok_iff platform t now false
          rw [hw.deferred, hw.sink] at hflush
          exact ⟨fun h => ⟨hflush.mp h, hput.mp rfl⟩, fun h => hflush.mpr h.1⟩
    · simp only [hm, Bool.false_eq_true, if_false, false_implies, and_true]
      exact flush_then_ok_iff platform s now false

theorem publish_ok_iff (s : Manager) (key : String) (value : Value) (c : ClassPolicy) (now : ℕ) :
    (s.publish policy platform key value c now).1 = .ok () ↔
      s.LateCallsOk policy platform key value c now := by
  have hsettle := settle_ok_iff policy platform s key value c now
  unfold publish
  cases hres : s.settle policy platform key value c now with
  | mk r t =>
    rw [hres] at hsettle
    cases r with
    | error e =>
      simp only [reduceCtorEq, false_iff] at hsettle ⊢
      exact fun h => hsettle ⟨h.flush, h.mirror⟩
    | ok _ =>
      obtain ⟨hflush, hmirror⟩ := hsettle.mp rfl
      simp only [archive]
      by_cases hf : c.archivesFrozen = true
      · rw [if_pos hf, tierPut_ok_iff policy platform t (by simp)]
        exact ⟨fun h => ⟨hflush, hmirror, fun _ => h⟩, fun h => h.archive hf⟩
      · rw [if_neg hf]
        exact ⟨fun _ => ⟨hflush, hmirror, fun h => absurd h hf⟩, fun _ => rfl⟩

/-- The state left by the admission decides the later calls as the state before. -/
theorem lateCallsOk_congr {key : String} {value : Value} {c : ClassPolicy} {now : ℕ}
    (hd : t.deferred = s.deferred) (hs : t.sink.isSome ↔ s.sink.isSome) :
    t.LateCallsOk policy platform key value c now ↔
      s.LateCallsOk policy platform key value c now := by
  have hf : t.flushedAfter key value c now = s.flushedAfter key value c now := by
    simp only [flushedAfter, hd]
  exact ⟨fun h => ⟨fun r hr => ⟨hs.mp (h.flush r (hf ▸ hr)).1, (h.flush r (hf ▸ hr)).2⟩,
      h.mirror, h.archive⟩,
    fun h => ⟨fun r hr => ⟨hs.mpr (h.flush r (hf ▸ hr)).1, (h.flush r (hf ▸ hr)).2⟩,
      h.mirror, h.archive⟩⟩

/-- An upsert fails before its commit, or in one of the calls after it. -/
theorem upsertAt_ok_iff (s : Manager) (key : String) (value : Value) {className : String}
    {c : ClassPolicy} (hc : policy.class? className = .ok c) (now : ℕ) :
    (s.upsertAt policy platform key value className now).1 = .ok () ↔
      s.Commits policy platform key value c now ∧
        s.LateCallsOk policy platform key value c now := by
  have ha := enterHot_admitted policy platform s key value c now
  rw [← enterHot_ok_iff]
  unfold upsertAt
  rw [hc]
  simp only
  cases hres : s.enterHot policy platform key value c now with
  | mk r t =>
    rw [hres] at ha
    cases r with
    | error e => simp
    | ok _ =>
      simp only [publish_ok_iff, lateCallsOk_congr ha.1.deferred ha.2]
      simp

/-- An upsert that fails before its commit is atomic. -/
theorem atomic_of_refused {key : String} {value : Value} {className : String} {now : ℕ}
    (h : ∀ c, policy.class? className = .ok c →
      ¬ s.Commits policy platform key value c now) :
    s.Atomic policy platform key value className now := by
  have hsame : ∀ t, (s.upsertAt policy platform key value className now).2 = t →
      t.hot = s.hot ∧ (∀ T, t.copy T key = s.copy T key) ∧ t.deferred = s.deferred ∧
        t.sink = s.sink := by
    rintro t rfl
    unfold upsertAt
    cases hc : policy.class? className with
    | error e => exact ⟨rfl, fun _ => rfl, rfl, rfl⟩
    | ok c =>
      have ha := enterHot_admitted policy platform s key value c now
      have hno := h c hc
      rw [← enterHot_ok_iff] at hno
      cases hres : s.enterHot policy platform key value c now with
      | mk r t =>
        cases r with
        | error e =>
          have hsink := enterHot_error (e := e) (congrArg Prod.fst hres)
          simp only [hres] at ha hsink ⊢
          exact ⟨ha.1.refused (fun h => by cases h), ha.1.copies, ha.1.deferred, hsink⟩
        | ok _ => exact absurd (congrArg Prod.fst hres) hno
  obtain ⟨hhot, hcopy, hdef, hsink⟩ := hsame _ rfl
  exact ⟨fun _ _ later now' => getAt_congr later hhot hcopy now', fun _ _ => hdef,
    fun _ _ => hsink, fun c hc hcom => absurd hcom (h c hc)⟩

/-- A write committed to Hot whose later call fails is read although reported
as failed. -/
theorem read_of_late_failure {key : String} {value : Value} {className : String} {now : ℕ}
    {c : ClassPolicy} (hc : policy.class? className = .ok c)
    (hcom : s.Commits policy platform key value c now)
    (hlate : ¬ s.LateCallsOk policy platform key value c now) :
    (∃ e, (s.upsertAt policy platform key value className now).1 = .error e) ∧
    ∀ order, ((s.upsertAt policy platform key value className now).2.getAt policy
      (.reliable order) key now).1 = some value := by
  refine ⟨?_, fun order => ?_⟩
  · cases hr : (s.upsertAt policy platform key value className now).1 with
    | error e => exact ⟨e, rfl⟩
    | ok _ => exact absurd ((upsertAt_ok_iff s key value hc now).mp hr).2 hlate
  · have ha := enterHot_admitted policy platform s key value c now
    have hok := enterHot_ok_iff.mpr hcom
    have hhot : (s.upsertAt policy platform key value className now).2.hot.get? key =
        some (HotStore.newEntry value c now) := by
      unfold upsertAt
      rw [hc]
      simp only
      cases hres : s.enterHot policy platform key value c now with
      | mk r t =>
        rw [hres] at ha hok
        cases r with
        | error e => cases hok
        | ok _ =>
          rw [(publish_frame policy platform t key value c now).1]
          exact ha.1.committed rfl
    rw [getAt_value, lookup, hhot, Option.filter_some]
    have hpos := (MemoryPolicy.class?_accepted hc).positive.1
    have hlive : (HotStore.newEntry value c now).live now = true := by
      cases httl : c.ttl with
      | none => simp [HotStore.newEntry, HotEntry.live, HotEntry.expired, httl]
      | some ttl =>
        have : ttl ≠ 0 := fun h0 => hpos (by rw [httl, h0])
        simp [HotStore.newEntry, HotEntry.live, HotEntry.expired, httl]
        omega
    rw [hlive]
    rfl

end Manager

/-- A write is atomic if it is refused before its commit to Hot or if no call
after the commit fails. A write that fails after its commit is not, when it
writes another value than its key reads. -/
theorem upsert_atomic (policy : MemoryPolicy) (platform : Platform) (s : Manager) (key : String)
    (value : Value) (className : String) (now : ℕ) :
    ((∀ c, policy.class? className = .ok c → s.Commits policy platform key value c now →
        s.LateCallsOk policy platform key value c now) →
      s.Atomic policy platform key value className now) ∧
    (s.lookup key now ≠ some value →
      (s.Atomic policy platform key value className now ↔
        ∀ c, policy.class? className = .ok c → s.Commits policy platform key value c now →
          s.LateCallsOk policy platform key value c now)) := by
  have hsuff : (∀ c, policy.class? className = .ok c →
      s.Commits policy platform key value c now →
        s.LateCallsOk policy platform key value c now) →
      s.Atomic policy platform key value className now := by
    intro h
    by_cases hcom : ∃ c, policy.class? className = .ok c ∧
        s.Commits policy platform key value c now
    · -- committed, and nothing fails after that: the write succeeds
      obtain ⟨c, hc, hcom⟩ := hcom
      have hok := (Manager.upsertAt_ok_iff s key value hc now).mpr ⟨hcom, h c hc hcom⟩
      refine ⟨fun e he => ?_, fun e he => ?_, fun e he => ?_, fun c' _ _ r _ _ e _ => ?_⟩
      · cases he.symm.trans hok
      · cases he.symm.trans hok
      · cases he.symm.trans hok
      · exact fun he => by cases he.symm.trans hok
    · exact Manager.atomic_of_refused fun c hc hcom' => hcom ⟨c, hc, hcom'⟩
  refine ⟨hsuff, fun hne => ⟨fun hat c hc hcom => ?_, hsuff⟩⟩
  by_contra hlate
  obtain ⟨⟨e, he⟩, hread⟩ := Manager.read_of_late_failure hc hcom hlate
  have hsame := hat.read e he (.reliable .asStored) now
  rw [hread, Manager.getAt_value] at hsame
  exact hne hsame.symm

/-- A deferred class whose records are due after ten. -/
def orders : ClassPolicy where
  name := "orders"
  policy := .deferred
  temperature := .hot
  ttl := none
  flush := some 10
  priority := .normal
  demoteAfter := none

/-- A volatile, a deferred and an immediate class. -/
def sinkPolicy : MemoryPolicy where
  maxEntries := 4
  maxHotBytes := 1024
  maxPendingDeferred := 8
  backends := ⟨false, false, false⟩
  classes := ⟨[⟨"ticks", .volatile, .hot, some 100, none, .normal, none⟩, orders,
    ⟨"audit", .immediate, .hot, none, none, .normal, none⟩], by decide⟩
  accepted := by
    intro c hc
    simp only [List.mem_cons, List.not_mem_nil, or_false] at hc
    rcases hc with rfl | rfl | rfl <;> constructor <;> simp [orders]
  maxEntries_pos := by decide
  maxHotBytes_pos := sampleBytes_pos
  maxPendingDeferred_pos := samplePending_pos

/-- The sink fails for one key. -/
def sinkFails (key : String) : Platform where
  order := .asStored
  fault := fun call =>
    if call = .persist key then some (.persistence "sink caído") else none

/-- An immediate write that the sink refuses. -/
theorem refused_write_atomic :
    ∃ m, Manager.create sinkPolicy true = .ok m ∧
      (m.upsertAt sinkPolicy (sinkFails "a-1") "a-1" one "audit" 0).1 =
        .error (.persistence "sink caído") ∧
      m.Atomic sinkPolicy (sinkFails "a-1") "a-1" one "audit" 0 := by
  refine ⟨_, rfl, rfl, (upsert_atomic _ _ _ _ _ _ _).1 fun c hc hcom => ?_⟩
  cases hc
  obtain ⟨prepared, _, _, hpersist⟩ := hcom
  cases (hpersist (.inl rfl)).2

/-- The record of `o-1` is due when `EURUSD` is written: its failure is the
error of a write that is read. -/
theorem unrelated_flush_fails_write :
    ∃ m s, Manager.create sinkPolicy true = .ok m ∧
      m.upsertAt sinkPolicy (.reliable .asStored) "o-1" one "orders" 0 = (.ok (), s) ∧
      (s.upsertAt sinkPolicy (sinkFails "o-1") "EURUSD" two "ticks" 20).1 =
        .error (.persistence "sink caído") ∧
      ¬ s.Atomic sinkPolicy (sinkFails "o-1") "EURUSD" two "ticks" 20 := by
  refine ⟨_, _, rfl, rfl, rfl, fun h => ?_⟩
  have hread := h.read _ rfl (.reliable .asStored) 20
  cases hread

end Jaiba.Memory
