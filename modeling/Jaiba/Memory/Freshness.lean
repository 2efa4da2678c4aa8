import Jaiba.Lib.Machine
import Jaiba.Memory.Effect

/-!
# Freshness of reads

The tiered memory as a map up to absence: a read returns nothing or the value of
the last write of the key. A copy that a write leaves below Hot is what can
break this, so the invariant is about the first copy below Hot.
-/

namespace Jaiba.Memory
open Jaiba.Lib

/-- A manager with the last value written under each key and not removed since. -/
structure Tracked where
  manager : Manager
  current : String → Option Value

namespace Tracked

def step (policy : MemoryPolicy) (s : Tracked) (a : IterOrder × MemoryOp) : Tracked where
  manager := a.2.run policy (.reliable a.1) s.manager
  current :=
    match a.2 with
    | .upsert key value className now =>
      match (s.manager.upsertAt policy (.reliable a.1) key value className now).1 with
      | .ok _ => Function.update s.current key (some value)
      | .error _ => s.current
    | .remove key => Function.update s.current key none
    | _ => s.current

/-- Runs of the manager in which no backend call fails. -/
def machine (policy : MemoryPolicy) : Machine Tracked (IterOrder × MemoryOp) :=
  ⟨fun s a => some (s.step policy a)⟩

def start (m : Manager) : Tracked := ⟨m, fun _ => none⟩

end Tracked

/-- An entry of the class never leaves Hot but by a write or a `remove`. -/
def ClassPolicy.pinned (c : ClassPolicy) : Bool := c.priority = .critical && c.ttl.isNone

def HotEntry.pinned (e : HotEntry) : Bool := !e.evictable && e.expiresAt.isNone

namespace Manager

/-- The first copy below Hot after a write, from the state before it. -/
def leftBelow (policy : MemoryPolicy) (s : Manager) (key : String) (value : Value)
    (c : ClassPolicy) : Option Value :=
  (((published policy s key value c .warm).or (published policy s key value c .cold)).or
    (published policy s key value c .frozen)).map TierEntry.value

end Manager

namespace Tracked

/-- The condition on a step: a write that Hot admits leaves no older copy of the
key as the first one below Hot, unless its class is pinned in Hot. -/
def Clean (policy : MemoryPolicy) (s : Tracked) : IterOrder × MemoryOp → Prop
  | (order, .upsert key value className now) => ∀ c prepared,
      policy.class? className = .ok c →
      s.manager.hot.prepareUpsert order key value c now = .ok prepared →
      c.pinned = true ∨ s.manager.leftBelow policy key value c = none ∨
        s.manager.leftBelow policy key value c = some value
  | _ => True

end Tracked

/-! ### One key -/

/-- The Hot entry and the first copy below it against the last value written. -/
structure KeyFresh (h : Option HotEntry) (b c : Option Value) : Prop where
  hot : ∀ e, h = some e → c = some e.value
  below : b = none ∨ b = c ∨ ∃ e, h = some e ∧ e.pinned = true

namespace KeyFresh

variable {h : Option HotEntry} {b c : Option Value}

theorem live_of_pinned {e : HotEntry} (he : e.pinned = true) (now : ℕ) : e.live now = true := by
  simp only [HotEntry.pinned, Bool.and_eq_true, Option.isNone_iff_eq_none] at he
  simp [HotEntry.live, HotEntry.expired, he.2]

theorem expire (hf : KeyFresh h b c) (now : ℕ) :
    KeyFresh (h.filter fun e => e.live now) b c where
  hot := fun e he => hf.hot e (Option.filter_eq_some_iff.mp he).1
  below := by
    refine hf.below.imp_right (Or.imp_right ?_)
    rintro ⟨e, rfl, hp⟩
    exact ⟨e, by rw [Option.filter_some, live_of_pinned hp]; rfl, hp⟩

theorem evict (hf : KeyFresh h b c) {e : HotEntry} (he : h = some e)
    (hev : e.evictable = true) : KeyFresh none b c where
  hot := fun _ h => by cases h
  below := by
    rcases hf.below with h | h | ⟨e', he', hp⟩
    · exact .inl h
    · exact .inr (.inl h)
    · obtain rfl := Option.some.inj (he.symm.trans he')
      simp [HotEntry.pinned, hev] at hp

theorem copied (hf : KeyFresh h b c) {b' : Option Value}
    (hb : b' = b ∨ ∃ e, h = some e ∧ b' = some e.value) : KeyFresh h b' c where
  hot := hf.hot
  below := by
    rcases hb with rfl | ⟨e, he, rfl⟩
    · exact hf.below
    · exact .inr (.inl (hf.hot e he).symm)

end KeyFresh

namespace Manager

variable {policy : MemoryPolicy} {s t : Manager}

theorem lower_cases {k : String} {P : HotEntry → Prop}
    (h : ∀ T, t.copy T k = s.copy T k ∨ ∃ e, P e ∧ t.copy T k = some e.toTier) :
    t.lower k = s.lower k ∨ ∃ e, P e ∧ t.lower k = some e.value := by
  have hput : ∀ (T : Tier) (e : HotEntry), t.copy T k = some e.toTier → (∀ T', T' = .warm ∧ T ≠ .warm ∨
      T' = .cold ∧ T = .frozen → t.copy T' k = none) → t.lower k = some e.value := by
    intro T e he hnone
    cases T with
    | warm => simp [lower, firstCopy, he, HotEntry.toTier]
    | cold => simp [lower, firstCopy, he, hnone .warm (by simp), HotEntry.toTier]
    | frozen =>
      simp [lower, firstCopy, he, hnone .warm (by simp), hnone .cold (by simp), HotEntry.toTier]
  rcases h .warm with hw | ⟨e, hP, hw⟩
  · rcases hwv : s.copy .warm k with _ | w
    · rw [hwv] at hw
      rcases h .cold with hc | ⟨e, hP, hc⟩
      · rcases hcv : s.copy .cold k with _ | x
        · rw [hcv] at hc
          rcases h .frozen with hf | ⟨e, hP, hf⟩
          · exact .inl (by simp [lower, firstCopy, hw, hwv, hc, hcv, hf])
          · refine .inr ⟨e, hP, hput .frozen e hf ?_⟩
            rintro T' (⟨rfl, _⟩ | ⟨rfl, _⟩)
            · exact hw
            · exact hc
        · exact .inl (by simp [lower, firstCopy, hw, hwv, hc, hcv])
      · refine .inr ⟨e, hP, hput .cold e hc ?_⟩
        rintro T' (⟨rfl, _⟩ | ⟨_, h'⟩)
        · exact hw
        · cases h'
    · exact .inl (by simp [lower, firstCopy, hw, hwv])
  · refine .inr ⟨e, hP, hput .warm e hw ?_⟩
    rintro T' (⟨_, h'⟩ | ⟨_, h'⟩)
    · exact absurd rfl h'
    · cases h'

/-- An operation that is not a write of the key keeps it fresh. -/
theorem Effect.fresh {now : ℕ} {k : String} {c : Option Value} (h : Effect policy s t now k)
    (hf : KeyFresh (s.hot.get? k) (s.lower k) c) : KeyFresh (t.hot.get? k) (t.lower k) c := by
  have hlow := lower_cases (P := fun e => s.hot.get? k = some e) fun T =>
    (h.copies T).imp_right fun ⟨e, he, _, hc⟩ => ⟨e, he, hc⟩
  have hf' := hf.copied hlow
  rcases h.hot with hh | hh | ⟨hh, e, he, _, hev, _⟩
  · exact hh ▸ hf'
  · exact hh ▸ hf'.expire now
  · exact hh ▸ hf'.evict he hev

/-- A sink is there when the policy asks for one, and without it nothing waits. -/
structure Banked (policy : MemoryPolicy) (s : Manager) : Prop where
  sink : policy.requiresPersistSink = true → s.sink.isSome
  waiting : Sinked s

theorem Banked.of_same (h : Banked policy s) (hs : t.sink.isSome ↔ s.sink.isSome)
    (hd : t.deferred = s.deferred) : Banked policy t where
  sink := fun hp => hs.mpr (h.sink hp)
  waiting := fun hn => by
    rw [hd]
    refine h.waiting (Option.not_isSome_iff_eq_none.mp fun hsome => ?_)
    have ht := hs.mpr hsome
    rw [hn] at ht
    cases ht

theorem Banked.flush (h : Banked policy s) (platform : Platform) (now : ℕ) (force : Bool) :
    Banked policy (s.flushDeferredAt platform now force).2 := by
  obtain ⟨h1, h2⟩ := flush_sinked platform h.waiting now force
  exact ⟨fun hp => h2.mpr (h.sink hp), h1⟩

theorem create_banked {sink : Bool} {m : Manager} (h : create policy sink = .ok m) :
    Banked policy m := by
  unfold create at h
  split at h
  · cases h
  next hreq =>
    cases h
    refine ⟨fun hp => ?_, fun _ => rfl⟩
    cases sink
    · exact absurd (by simpa using hp) hreq
    · rfl

theorem class?_requires {name : String} {c : ClassPolicy} (h : policy.class? name = .ok c)
    (hc : c.policy.requiresPersistSink = true) : policy.requiresPersistSink = true := by
  have hm := Table.find?_mem (MemoryPolicy.class?_ok_iff.mp h)
  exact List.any_eq_true.mpr ⟨c, hm, hc⟩

theorem applyDemotions_frame (policy : MemoryPolicy) (platform : Platform)
    (victims : List HotItem) (s : Manager) :
    (s.applyDemotions policy platform victims).2.sink = s.sink ∧
    (s.applyDemotions policy platform victims).2.deferred = s.deferred := by
  induction victims generalizing s with
  | nil => exact ⟨rfl, rfl⟩
  | cons x victims ih =>
    have hw := demoteOrDrop_wrote policy platform s x.1 x.2
    unfold applyDemotions
    split
    next e t ht =>
      rw [ht] at hw
      exact ⟨hw.sink, hw.deferred⟩
    next t ht =>
      rw [ht] at hw
      exact ⟨(ih t).1.trans hw.sink, (ih t).2.trans hw.deferred⟩

theorem Banked.poll (h : Banked policy s) (platform : Platform) (now : ℕ) :
    Banked policy (s.poll policy platform now).2 := by
  have hflush := h.flush platform now false
  unfold Manager.poll
  split <;> rename_i ht <;> rw [ht] at hflush
  · exact hflush
  next t =>
    have hd := applyDemotions_frame policy platform
      (t.hot.reclaimIdle platform.order now 64).1
      { t with hot := (t.hot.reclaimIdle platform.order now 64).2 }
    have hidle := hflush.of_same (by rw [hd.1]) hd.2
    unfold demoteIdleAt
    simp only
    split <;> rename_i hu <;> rw [hu] at hidle <;> exact hidle

theorem Banked.notifyPressure (h : Banked policy s) (platform : Platform) (now : ℕ) :
    Banked policy (s.notifyPressure policy platform now).2 := by
  have hflush := h.flush platform now true
  unfold Manager.notifyPressure
  split
  next e t ht =>
    rw [ht] at hflush
    exact hflush
  next n t ht =>
    rw [ht] at hflush
    split
    · exact hflush.of_same .rfl rfl
    next key entry hot _ =>
      have hw := demoteOrDrop_wrote policy platform
        { t with hot := hot } key entry
      split <;> rename_i hu <;> rw [hu] at hw
      all_goals exact hflush.of_same (by rw [show _ = _ from hw.sink]) hw.deferred

theorem Banked.getAt (h : Banked policy s) (order : IterOrder) (key : String) (now : ℕ) :
    Banked policy (s.getAt policy (.reliable order) key now).2 := by
  have htouched : Banked policy (touched (.reliable order) s key now) :=
    (h.flush (.reliable order) now false).of_same .rfl rfl
  rcases getAt_reliable policy order s key now with
    ⟨e, _, hr⟩ | ⟨_, ⟨_, hr⟩ | ⟨entry, _, hr⟩⟩ <;> rw [hr]
  · exact htouched
  · exact htouched
  · obtain ⟨_, _, hs, hd, _⟩ := promote_spec policy (.reliable order)
      (touched (.reliable order) s key now) key entry now
    exact htouched.of_same (by rw [hs]) hd

end Manager

namespace Manager

variable {policy : MemoryPolicy}

/-- A write that Hot refuses changes nothing about its key. -/
theorem upsert_refused {order : IterOrder} {key : String} {value : Value} {className : String}
    {now : ℕ} {m : Manager} (h : Banked policy m) {e : MemoryError}
    (hr : (m.upsertAt policy (.reliable order) key value className now).1 = .error e) :
    Banked policy (m.upsertAt policy (.reliable order) key value className now).2 ∧
    (m.upsertAt policy (.reliable order) key value className now).2.hot.get? key =
      m.hot.get? key ∧
    ∀ T, (m.upsertAt policy (.reliable order) key value className now).2.copy T key =
      m.copy T key := by
  unfold upsertAt at hr ⊢
  split at hr
  · exact ⟨h, rfl, fun _ => rfl⟩
  next c hc =>
    have ha := enterHot_admitted policy (.reliable order) m key value c now
    split at hr
    next e' t ht =>
      rw [ht] at ha
      exact ⟨h.of_same ha.2 ha.1.deferred, by rw [ha.1.refused (by simp)], ha.1.copies⟩
    next t ht =>
      rw [ht] at ha
      have hb : Banked policy t := h.of_same ha.2 ha.1.deferred
      have hp := publish_reliable policy order hb.waiting key value (c := c)
        (fun hdef => hb.sink (class?_requires hc (by rw [hdef]; rfl))) now
      rw [hp.1] at hr
      cases hr

/-- A write that succeeds: its entry is in Hot, and `published` is what is below it. -/
theorem upsert_done {order : IterOrder} {key : String} {value : Value} {className : String}
    {now : ℕ} {m : Manager} (h : Banked policy m)
    (hr : (m.upsertAt policy (.reliable order) key value className now).1 = .ok ()) :
    ∃ c prepared, policy.class? className = .ok c ∧
      m.hot.prepareUpsert order key value c now = .ok prepared ∧
      Banked policy (m.upsertAt policy (.reliable order) key value className now).2 ∧
      (m.upsertAt policy (.reliable order) key value className now).2.hot.get? key =
        some (HotStore.newEntry value c now) ∧
      ∀ T, (m.upsertAt policy (.reliable order) key value className now).2.copy T key =
        published policy m key value c T := by
  unfold upsertAt at hr ⊢
  split at hr
  · cases hr
  next c hc =>
    have ha := enterHot_admitted policy (.reliable order) m key value c now
    split at hr
    next e' t ht => cases hr
    next t ht =>
      rw [ht] at ha
      have hb : Banked policy t := h.of_same ha.2 ha.1.deferred
      have hdef : c.policy = .deferred → t.sink.isSome := fun hdef =>
        hb.sink (class?_requires hc (by rw [hdef]; rfl))
      obtain ⟨_, hcopy, hsk, hsome⟩ := publish_reliable policy order hb.waiting key
        value (c := c) hdef now
      have hprep : ∃ prepared, m.hot.prepareUpsert order key value c now = .ok prepared := by
        cases hp : m.hot.prepareUpsert order key value c now with
        | ok prepared => exact ⟨prepared, rfl⟩
        | error e =>
          unfold enterHot hotUpsert at ht
          simp only [Platform.reliable, hp] at ht
          cases hpol : c.policy <;> simp [hpol] at ht
      obtain ⟨prepared, hp⟩ := hprep
      have hframe := publish_frame policy (.reliable order) t key value c now
      refine ⟨c, prepared, hc, hp, ⟨fun hq => hsome.mpr (hb.sink hq), hsk⟩, ?_, ?_⟩
      · rw [hframe.1]
        exact ha.1.committed rfl
      · intro T
        rw [hcopy]
        cases T <;> simp only [published, ha.1.copies]

theorem Banked.run {m : Manager} (h : Banked policy m) (order : IterOrder) (op : MemoryOp) :
    Banked policy (op.run policy (.reliable order) m) := by
  cases op with
  | upsert key value className now =>
    cases hr : (m.upsertAt policy (.reliable order) key value className now).1 with
    | error e => exact (upsert_refused h hr).1
    | ok u =>
      obtain ⟨_, _, _, _, hb, _⟩ := upsert_done h hr
      exact hb
  | get key now => exact h.getAt order key now
  | remove key =>
    obtain ⟨_, _, hs, hd⟩ := remove_reliable order m key key
    exact h.of_same (by rw [MemoryOp.run, hs]) hd
  | notifyPressure now => exact h.notifyPressure _ now
  | poll now => exact h.poll _ now

end Manager

/-! ### Runs -/

namespace Tracked

open Manager

structure Inv (policy : MemoryPolicy) (s : Tracked) : Prop where
  banked : Banked policy s.manager
  fresh : ∀ k, KeyFresh (s.manager.hot.get? k) (s.manager.lower k) (s.current k)

variable {policy : MemoryPolicy} {s : Tracked}

theorem start_inv {sink : Bool} {m : Manager} (h : create policy sink = .ok m) :
    Inv policy (start m) where
  banked := create_banked h
  fresh := fun k => by
    unfold create at h
    split at h <;> cases h
    exact ⟨(fun _ h => by cases h), .inl rfl⟩

theorem newEntry_pinned (value : Value) (c : ClassPolicy) (now : ℕ) :
    (HotStore.newEntry value c now).pinned = c.pinned := by
  cases hp : c.priority <;> cases ht : c.ttl <;>
    simp [HotStore.newEntry, HotEntry.pinned, ClassPolicy.pinned, HotEntry.evictable, hp, ht,
      Priority.rank]

/-- A key the operation is not about. -/
theorem fresh_other (h : Inv policy s) (a : IterOrder × MemoryOp) {k : String}
    (hk : a.2.key? ≠ some k) :
    KeyFresh ((s.step policy a).manager.hot.get? k) ((s.step policy a).manager.lower k)
      ((s.step policy a).current k) := by
  obtain ⟨order, op⟩ := a
  have hcur : (s.step policy (order, op)).current k = s.current k := by
    cases op with
    | upsert key value className now =>
      have hne : k ≠ key := fun he => hk (congrArg some he.symm)
      simp only [step]
      cases (s.manager.upsertAt policy (.reliable order) key value className now).1 with
      | ok u => exact Function.update_of_ne hne _ _
      | error e => rfl
    | remove key =>
      have hne : k ≠ key := fun he => hk (congrArg some he.symm)
      exact Function.update_of_ne hne _ _
    | _ => rfl
  obtain ⟨u, h1, h2⟩ := run_effect policy order s.manager op (op.now?.getD 0)
    (fun n hn => by rw [hn]; rfl) hk
  rw [hcur]
  exact h2.fresh (h1.fresh (h.fresh k))

theorem fresh_upsert (h : Inv policy s) {order : IterOrder} {key : String} {value : Value}
    {className : String} {now : ℕ}
    (hclean : Clean policy s (order, .upsert key value className now)) :
    let t := s.step policy (order, .upsert key value className now)
    KeyFresh (t.manager.hot.get? key) (t.manager.lower key) (t.current key) := by
  simp only [step, MemoryOp.run]
  cases hr : (s.manager.upsertAt policy (.reliable order) key value className now).1 with
  | error e =>
    obtain ⟨_, hhot, hcopy⟩ := upsert_refused h.banked hr
    simp only [lower, firstCopy, hcopy, hhot]
    exact h.fresh key
  | ok u =>
    obtain ⟨c, prepared, hc, hp, _, hhot, hcopy⟩ := upsert_done h.banked hr
    simp only [lower, firstCopy, hcopy, hhot, Function.update_self]
    refine ⟨fun e he => (by cases he; rfl), ?_⟩
    rcases hclean c prepared hc hp with hpin | hnone | hval
    · exact .inr (.inr ⟨_, rfl, (newEntry_pinned value c now).trans hpin⟩)
    · exact .inl hnone
    · exact .inr (.inl hval)

theorem fresh_get (h : Inv policy s) (order : IterOrder) (key : String) (now : ℕ) :
    let t := s.step policy (order, .get key now)
    KeyFresh (t.manager.hot.get? key) (t.manager.lower key) (t.current key) := by
  obtain ⟨hcopy, hhot⟩ := getAt_own policy order s.manager key now
  simp only [step, MemoryOp.run, lower, firstCopy, hcopy]
  have hkey := h.fresh key
  rcases hhot with ⟨e, he, _, ht⟩ | ⟨hn, ht⟩
  · rw [ht]
    refine ⟨fun e' he' => (by cases he'; exact hkey.hot e he), ?_⟩
    refine hkey.below.imp_right (Or.imp_right ?_)
    rintro ⟨e', he', hp⟩
    obtain rfl := Option.some.inj (he.symm.trans he')
    exact ⟨_, rfl, hp⟩
  · -- a miss in Hot: no pinned entry, so the first copy is the last value written
    have hbelow : s.manager.lower key = none ∨ s.manager.lower key = s.current key := by
      rcases (hkey.expire now).below with hb | hb | ⟨e, he, _⟩
      · exact .inl hb
      · exact .inr hb
      · rw [hn] at he
        cases he
    refine ⟨fun e he => ?_, hbelow.imp_right .inl⟩
    rcases ht with ht | ⟨entry, c, hfirst, hc, ht⟩
    · rw [ht] at he
      cases he
    · rw [ht] at he
      cases he
      rw [lower, hfirst] at hbelow
      rcases hbelow with hb | hb
      · cases hb
      · exact hb.symm

theorem step_inv (h : Inv policy s) (a : IterOrder × MemoryOp) (hclean : Clean policy s a) :
    Inv policy (s.step policy a) := by
  refine ⟨h.banked.run a.1 a.2, fun k => ?_⟩
  by_cases hk : a.2.key? = some k
  · obtain ⟨order, op⟩ := a
    cases op with
    | upsert key value className now =>
      cases Option.some.inj hk
      exact fresh_upsert h hclean
    | get key now =>
      cases Option.some.inj hk
      exact fresh_get h order k now
    | remove key =>
      cases Option.some.inj hk
      obtain ⟨hhot, hcopy, _, _⟩ := remove_reliable order s.manager k k
      simp only [step, MemoryOp.run, lower, firstCopy, hhot, hcopy, if_true, Function.update_self]
      exact ⟨(fun e he => by cases he), .inl rfl⟩
    | notifyPressure now => cases hk
    | poll now => cases hk
  · exact fresh_other h a hk

theorem Inv.read (h : Inv policy s) (order : IterOrder) (key : String) (now : ℕ) :
    (s.manager.getAt policy (.reliable order) key now).1 = none ∨
      (s.manager.getAt policy (.reliable order) key now).1 = s.current key := by
  rw [getAt_value, lookup]
  have hf := (h.fresh key).expire now
  cases hlive : (s.manager.hot.get? key).filter (fun e => e.live now) with
  | some e => exact .inr (hf.hot e hlive).symm
  | none =>
    rcases hf.below with hb | hb | ⟨e, he, _⟩
    · exact .inl hb
    · exact .inr hb
    · rw [hlive] at he
      cases he

/-- An older first copy below Hot is read once the Hot entry has expired. -/
theorem stale_after_ttl (h : Inv policy s) (order : IterOrder) {key : String} {value u : Value}
    {className : String} {now ttl : ℕ} {c : ClassPolicy} (hc : policy.class? className = .ok c)
    (httl : c.ttl = some ttl)
    (hok : (s.manager.upsertAt policy (.reliable order) key value className now).1 = .ok ())
    (hu : s.manager.leftBelow policy key value c = some u) :
    (((s.step policy (order, .upsert key value className now)).manager.getAt policy
      (.reliable order) key (now + ttl)).1 = some u) ∧
    (s.step policy (order, .upsert key value className now)).current key = some value := by
  obtain ⟨c', prepared, hc', _, _, hhot, hcopy⟩ := upsert_done h.banked hok
  obtain rfl : c = c' := by
    rw [hc] at hc'
    cases hc'
    rfl
  refine ⟨?_, by simp only [step, hok, Function.update_self]⟩
  rw [getAt_value, lookup]
  have hgone : ((s.step policy (order, .upsert key value className now)).manager.hot.get?
      key).filter (fun e => e.live (now + ttl)) = none := by
    simp only [step, MemoryOp.run, hhot]
    rw [Option.filter_some]
    simp [HotStore.newEntry, HotEntry.live, HotEntry.expired, httl]
  rw [hgone, ← hu]
  simp only [step, MemoryOp.run, lower, firstCopy, leftBelow, hcopy]
  rfl

end Tracked

/-- In every run whose writes leave no older first copy below Hot, a read
returns nothing or the value of the last write of the key. A write of a class
with a ttl that leaves an older copy is read as that copy when the ttl is over. -/
theorem reads_fresh {policy : MemoryPolicy} {sink : Bool} {m : Manager}
    (hm : Manager.create policy sink = .ok m) {s : Tracked}
    (h : (Tracked.machine policy).Reach (Tracked.Clean policy) (.start m) s) :
    (∀ order key now, (s.manager.getAt policy (.reliable order) key now).1 = none ∨
      (s.manager.getAt policy (.reliable order) key now).1 = s.current key) ∧
    ∀ order key value className now c ttl u, policy.class? className = .ok c →
      c.ttl = some ttl →
      (s.manager.upsertAt policy (.reliable order) key value className now).1 = .ok () →
      s.manager.leftBelow policy key value c = some u → u ≠ value →
      let t := s.step policy (order, .upsert key value className now)
      (t.manager.getAt policy (.reliable order) key (now + ttl)).1 ≠ none ∧
        (t.manager.getAt policy (.reliable order) key (now + ttl)).1 ≠ t.current key := by
  have hinv : Tracked.Inv policy s := h.invariant (Tracked.start_inv hm) fun s a t hi hok hs => by
    cases Option.some.inj hs
    exact Tracked.step_inv hi a hok
  refine ⟨hinv.read, fun order key value className now c ttl u hc httl hok hu hne => ?_⟩
  obtain ⟨hread, hcur⟩ := Tracked.stale_after_ttl hinv order hc httl hok hu
  refine ⟨fun hn => ?_, fun he => hne (Option.some.inj (hread.symm.trans (he.trans hcur)))⟩
  cases hread.symm.trans hn

/-- A cache class that is demoted to Cold. -/
def coldClass : ClassPolicy where
  name := "quotes"
  policy := .cache
  temperature := .cold
  ttl := some 100
  flush := none
  priority := .normal
  demoteAfter := none

/-- The bounds that the sample policies share. -/
theorem sampleBytes_pos : 0 < 1024 := by decide

theorem sampleEntries_pos : 0 < 4 := by decide

theorem samplePending_pos : 0 < 8 := by decide

/-- One cold cache class with room for two entries. -/
def coldPolicy : MemoryPolicy where
  maxEntries := 2
  maxHotBytes := 1024
  maxPendingDeferred := 8
  backends := ⟨false, true, false⟩
  classes := ⟨[coldClass], by decide⟩
  accepted := by
    intro c hc
    obtain rfl := List.mem_singleton.mp hc
    constructor <;> simp [coldClass]
  maxEntries_pos := Nat.two_pos
  maxHotBytes_pos := sampleBytes_pos
  maxPendingDeferred_pos := samplePending_pos

def coldStart : Tracked :=
  .start ⟨⟨Dict.empty, 2, 1024⟩, fun _ => Dict.empty, none, ⟨OrderedDict.empty, 8⟩⟩

def one : Value := .number (.posInt 1)

def two : Value := .number (.posInt 2)

/-- A key written, evicted to Cold and read again with the value written. -/
theorem reads_fresh_after_eviction :
    ∃ s, (Tracked.machine coldPolicy).exec coldStart
        [(.asStored, .upsert "EURUSD" one "quotes" 0), (.asStored, .notifyPressure 1)] = some s ∧
      s.manager.hot.get? "EURUSD" = none ∧
      (s.manager.getAt coldPolicy (.reliable .asStored) "EURUSD" 2).1 ≠ none ∧
      ((s.manager.getAt coldPolicy (.reliable .asStored) "EURUSD" 2).1 = none ∨
        (s.manager.getAt coldPolicy (.reliable .asStored) "EURUSD" 2).1 = s.current "EURUSD") := by
  refine ⟨_, rfl, rfl, (fun h => by cases h), (@reads_fresh coldPolicy false _ rfl _ ?_).1
    .asStored "EURUSD" 2⟩
  refine .step (a := (.asStored, .notifyPressure 1)) (.step
    (a := (.asStored, .upsert "EURUSD" one "quotes" 0)) .refl ?_ rfl) trivial rfl
  intro c prepared hc _
  cases hc
  exact .inr (.inl rfl)

/-- A key evicted to Cold and written again: when the Hot entry expires, the
older Cold copy is read. -/
theorem stale_read_of_cold_copy :
    ∃ s, (Tracked.machine coldPolicy).exec coldStart
        [(.asStored, .upsert "EURUSD" one "quotes" 0), (.asStored, .notifyPressure 1),
          (.asStored, .upsert "EURUSD" two "quotes" 2)] = some s ∧
      s.current "EURUSD" = some two ∧
      (s.manager.getAt coldPolicy (.reliable .asStored) "EURUSD" 102).1 = some one :=
  ⟨_, rfl, rfl, rfl⟩

end Jaiba.Memory
