import Jaiba.Memory.Freshness

/-!
# Retention under eviction

A key of a class that has somewhere to go (a cache class with a lower tier, a
class archived in Frozen) or that is never evicted (priority critical) is read
back with its last value until its ttl is over, whatever is evicted, demoted
and promoted meanwhile.
-/

namespace Jaiba.Memory
open Jaiba.Lib

/-- A manager at a time, with the last write of each key not removed since. -/
structure Timed where
  manager : Manager
  clock : ℕ
  last : String → Option (ℕ × Value)

namespace Timed

/-- One operation at a time not before the clock. -/
def step (policy : MemoryPolicy) (s : Timed) (a : IterOrder × MemoryOp) : Option Timed :=
  let now := a.2.now?.getD s.clock
  if now < s.clock then none
  else some
    { manager := a.2.run policy (.reliable a.1) s.manager
      clock := now
      last :=
        match a.2 with
        | .upsert key value className now =>
          match (s.manager.upsertAt policy (.reliable a.1) key value className now).1 with
          | .ok _ => Function.update s.last key (some (now, value))
          | .error _ => s.last
        | .remove key => Function.update s.last key none
        | _ => s.last }

/-- Runs of the manager in which time does not go back and no call fails. -/
def machine (policy : MemoryPolicy) : Machine Timed (IterOrder × MemoryOp) := ⟨step policy⟩

def start (m : Manager) : Timed := ⟨m, 0, fun _ => none⟩

/-- Each key keeps its class. -/
def KeepsClass (classOf : String → String) (_ : Timed) : IterOrder × MemoryOp → Prop
  | (_, .upsert key _ className _) => className = classOf key
  | _ => True

end Timed

/-- `now` is within the ttl of a write at `t`. -/
def ClassPolicy.Within (c : ClassPolicy) (t now : ℕ) : Prop :=
  ∀ ttl, c.ttl = some ttl → now < t + ttl

/-- The class of the policy set: every cache class has an enabled lower tier. -/
def MemoryPolicy.CachesLower (p : MemoryPolicy) : Prop :=
  ∀ c ∈ p.classes.rows, c.policy = .cache →
    ∃ tier, c.target = some tier ∧ p.backends.enabled tier = true

/-- Classes whose keys are not lost by eviction. -/
def ClassPolicy.retained (c : ClassPolicy) : Bool :=
  c.policy = .cache || c.temperature = .frozen || c.priority = .critical

theorem target_of_retained {p : MemoryPolicy} {name : String} {c : ClassPolicy}
    (hp : p.CachesLower) (hc : p.class? name = .ok c) (hr : c.retained = true)
    (hcrit : c.priority ≠ .critical) :
    ∃ tier, c.target = some tier ∧ p.backends.enabled tier = true := by
  simp only [ClassPolicy.retained, Bool.or_eq_true, decide_eq_true_eq] at hr
  rcases hr with (hr | hr) | hr
  · exact hp c (Table.find?_mem (MemoryPolicy.class?_ok_iff.mp hc)) hr
  · exact ⟨.frozen, by simp [ClassPolicy.target, ClassPolicy.archivesFrozen, hr],
      (MemoryPolicy.class?_accepted hc).frozen hr⟩
  · exact absurd hr hcrit

/-! ### One key -/

namespace Manager

variable {policy : MemoryPolicy} {s t : Manager}

/-- What is kept under a key belongs to its class. -/
structure Owned (policy : MemoryPolicy) (className : String) (s : Manager) (k : String) :
    Prop where
  hot : ∀ e, s.hot.get? k = some e → ∃ c, policy.class? className = .ok c ∧
    e.className = className ∧ e.priority = c.priority
  copy : ∀ T x, s.copy T k = some x → ∃ c, policy.class? className = .ok c ∧
    c.target = some T ∧ x.className = className

/-- The value is in Hot for the rest of its ttl, or in the tier of its class. -/
def Holds (policy : MemoryPolicy) (c : ClassPolicy) (s : Manager) (k : String) (written : ℕ)
    (value : Value) : Prop :=
  (∃ e, s.hot.get? k = some e ∧ e.value = value ∧
    ∀ d, e.expiresAt = some d → ∃ ttl, c.ttl = some ttl ∧ written + ttl ≤ d) ∨
  s.hot.get? k = none ∧ ∃ tier, c.target = some tier ∧ policy.backends.enabled tier = true ∧
    ∃ x, s.copy tier k = some x ∧ x.value = value

theorem live_of_within {c : ClassPolicy} {e : HotEntry} {written now : ℕ}
    (hw : c.Within written now)
    (he : ∀ d, e.expiresAt = some d → ∃ ttl, c.ttl = some ttl ∧ written + ttl ≤ d) :
    e.live now = true := by
  cases hd : e.expiresAt with
  | none => simp [HotEntry.live, HotEntry.expired, hd]
  | some d =>
    obtain ⟨ttl, httl, hle⟩ := he d hd
    have hlt := hw ttl httl
    simp only [HotEntry.live, HotEntry.expired, hd, Bool.not_eq_true', decide_eq_false_iff_not]
    omega

theorem Effect.owned {className : String} {now : ℕ} {k : String} (h : Effect policy s t now k)
    (ho : Owned policy className s k) : Owned policy className t k where
  hot := fun e he => by
    rcases h.hot with hh | hh | ⟨hh, _⟩ <;> rw [hh] at he
    · exact ho.hot e he
    · exact ho.hot e (Option.filter_eq_some_iff.mp he).1
    · cases he
  copy := fun T x hx => by
    rcases h.copies T with hc | ⟨e, he, ⟨c, hc, htar⟩, hcopy⟩
    · exact ho.copy T x (hc ▸ hx)
    · obtain ⟨c', hc', hname, _⟩ := ho.hot e he
      rw [hcopy] at hx
      cases hx
      exact ⟨c, hname ▸ hc, htar, hname⟩

/-- An operation that is not about the key does not lose its value. -/
theorem Effect.holds {c : ClassPolicy} {className : String} {now : ℕ} {k : String}
    (h : Effect policy s t now k) (hp : policy.CachesLower)
    (hc : policy.class? className = .ok c) (hr : c.retained = true)
    (ho : Owned policy className s k) {written : ℕ} {value : Value}
    (hw : c.Within written now) (hh : Holds policy c s k written value) :
    Holds policy c t k written value := by
  rcases hh with ⟨e, he, hval, hexp⟩ | ⟨hnone, tier, htar, hen, x, hx, hval⟩
  · rcases h.hot with ht | ht | ⟨ht, e', he', _, hev, hst⟩
    · exact .inl ⟨e, ht.trans he, hval, hexp⟩
    · refine .inl ⟨e, ?_, hval, hexp⟩
      rw [ht, he, Option.filter_some, live_of_within hw hexp]
      rfl
    · -- evicted: the class is not critical, so its tier has received the entry
      obtain rfl := Option.some.inj (he.symm.trans he')
      obtain ⟨c', hc', hname, hprio⟩ := ho.hot e he
      obtain rfl : c = c' := by
        rw [hc] at hc'
        cases hc'
        rfl
      have hcrit : c.priority ≠ .critical := by
        intro hcr
        simp [HotEntry.evictable, hprio, hcr] at hev
      obtain ⟨tier, htar, hen⟩ := target_of_retained hp hc hr hcrit
      exact .inr ⟨ht, tier, htar, hen, e.toTier, hst c tier (hname ▸ hc) htar hen, hval⟩
  · refine .inr ⟨?_, tier, htar, hen, x, ?_, hval⟩
    · rcases h.hot with ht | ht | ⟨ht, _⟩
      · exact ht.trans hnone
      · rw [ht, hnone]
        rfl
      · exact ht
    · rcases h.copies tier with ht | ⟨e, he, _, _⟩
      · exact ht.trans hx
      · rw [hnone] at he
        cases he

/-- The only tier with a copy of the key is the tier of its class. -/
theorem firstCopy_of_owned {className : String} {k : String} {c : ClassPolicy} {tier : Tier}
    (ho : Owned policy className s k) (hc : policy.class? className = .ok c)
    (htar : c.target = some tier) : s.firstCopy k = s.copy tier k := by
  have hnone : ∀ T, T ≠ tier → s.copy T k = none := by
    intro T hT
    cases hx : s.copy T k with
    | none => rfl
    | some x =>
      obtain ⟨c', hc', htar', _⟩ := ho.copy T x hx
      rw [hc] at hc'
      cases hc'
      rw [htar] at htar'
      exact absurd (Option.some.inj htar').symm hT
  cases tier <;> simp [firstCopy, hnone]

/-- The value held is the value read. -/
theorem lookup_of_holds {c : ClassPolicy} {className : String} {k : String} {written now : ℕ}
    {value : Value} (hc : policy.class? className = .ok c) (ho : Owned policy className s k)
    (hw : c.Within written now) (hh : Holds policy c s k written value) :
    s.lookup k now = some value := by
  rcases hh with ⟨e, he, rfl, hexp⟩ | ⟨hnone, tier, htar, _, x, hx, rfl⟩
  · rw [lookup, he, Option.filter_some, live_of_within hw hexp]
    rfl
  · rw [lookup, hnone, lower, firstCopy_of_owned ho hc htar, hx]
    rfl

/-- A read of the key itself. -/
theorem getAt_holds (order : IterOrder) {c : ClassPolicy} {className : String} {k : String}
    {written now : ℕ} {value : Value} (hc : policy.class? className = .ok c)
    (ho : Owned policy className s k) (hw : c.Within written now)
    (hh : Holds policy c s k written value) (hle : written ≤ now) :
    Holds policy c (s.getAt policy (.reliable order) k now).2 k written value := by
  obtain ⟨hcopy, hhot⟩ := getAt_own policy order s k now
  rcases hh with ⟨e, he, hval, hexp⟩ | ⟨hnone, tier, htar, hen, x, hx, hval⟩
  · rcases hhot with ⟨e', he', _, ht⟩ | ⟨hn, _⟩
    · obtain rfl := Option.some.inj (he.symm.trans he')
      exact .inl ⟨_, ht, hval, hexp⟩
    · rw [he, Option.filter_some, live_of_within hw hexp] at hn
      cases hn
  · rcases hhot with ⟨e', he', _, _⟩ | ⟨_, ht | ⟨entry, c', hfirst, hc', ht⟩⟩
    · rw [hnone] at he'
      cases he'
    · exact .inr ⟨ht, tier, htar, hen, x, (hcopy tier).trans hx, hval⟩
    · -- promoted: the new expiry is counted from `now`
      rw [firstCopy_of_owned ho hc htar, hx] at hfirst
      cases hfirst
      obtain ⟨c'', hc'', _, hname⟩ := ho.copy tier x hx
      rw [hname, hc] at hc'
      cases hc'
      refine .inl ⟨_, ht, hval, fun d hd => ?_⟩
      obtain ⟨ttl, httl, rfl⟩ := Option.map_eq_some_iff.mp hd
      exact ⟨ttl, httl, by omega⟩

theorem getAt_owned (order : IterOrder) {className : String} {k : String} (now : ℕ)
    (ho : Owned policy className s k) :
    Owned policy className (s.getAt policy (.reliable order) k now).2 k := by
  obtain ⟨hcopy, hhot⟩ := getAt_own policy order s k now
  refine ⟨fun e he => ?_, fun T x hx => ho.copy T x (hcopy T ▸ hx)⟩
  rcases hhot with ⟨e', he', _, ht⟩ | ⟨_, ht | ⟨entry, c', hfirst, hc', ht⟩⟩ <;> rw [ht] at he
  · cases he
    exact ho.hot e' he'
  · cases he
  · cases he
    have hsome : ∃ T, s.copy T k = some entry := by
      unfold firstCopy at hfirst
      rcases Option.or_eq_some_iff.mp hfirst with h | ⟨_, h⟩
      · rcases Option.or_eq_some_iff.mp h with h | ⟨_, h⟩
        · exact ⟨_, h⟩
        · exact ⟨_, h⟩
      · exact ⟨_, h⟩
    obtain ⟨T, hT⟩ := hsome
    obtain ⟨c, hc, _, hname⟩ := ho.copy T entry hT
    rw [hname, hc] at hc'
    cases hc'
    exact ⟨_, hc, MemoryPolicy.class?_name hc, rfl⟩

/-- A write that succeeds is held from its own time on. -/
theorem upsert_owned {order : IterOrder} {key : String} {value : Value} {className : String}
    {now : ℕ} (hb : Banked policy s) (ho : Owned policy className s key)
    (hok : (s.upsertAt policy (.reliable order) key value className now).1 = .ok ()) :
    Owned policy className (s.upsertAt policy (.reliable order) key value className now).2 key ∧
    ∀ c, policy.class? className = .ok c →
      Holds policy c (s.upsertAt policy (.reliable order) key value className now).2 key now
        value := by
  obtain ⟨c, prepared, hc, _, _, hhot, hcopy⟩ := upsert_done hb hok
  have hname := MemoryPolicy.class?_name hc
  refine ⟨⟨fun e he => ?_, fun T x hx => ?_⟩, fun c' hc' => .inl ⟨_, hhot, rfl, fun d hd => ?_⟩⟩
  · rw [hhot] at he
    cases he
    exact ⟨c, hc, hname, rfl⟩
  · rw [hcopy] at hx
    cases T with
    | warm =>
      simp only [published] at hx
      split at hx
      next hm =>
        cases hx
        refine ⟨c, hc, ?_, hname⟩
        simp only [ClassPolicy.mirrorsWarm, Bool.and_eq_true, decide_eq_true_eq] at hm
        simp [ClassPolicy.target, ClassPolicy.archivesFrozen, ClassPolicy.archivesCold,
          ClassPolicy.mirrorsWarm, hm.1.1, hm.1.2]
      next => exact ho.copy .warm x hx
    | cold => exact ho.copy .cold x hx
    | frozen =>
      simp only [published] at hx
      split at hx
      next hm =>
        cases hx
        refine ⟨c, hc, ?_, hname⟩
        simp only [Bool.and_eq_true] at hm
        simp [ClassPolicy.target, hm.1]
      next => exact ho.copy .frozen x hx
  · rw [hc] at hc'
    cases hc'
    obtain ⟨ttl, httl, rfl⟩ := Option.map_eq_some_iff.mp hd
    exact ⟨ttl, httl, le_refl _⟩

end Manager

/-! ### Runs -/

namespace Timed

open Manager

variable {policy : MemoryPolicy} {classOf : String → String} {s t : Timed}

structure Inv (policy : MemoryPolicy) (classOf : String → String) (s : Timed) : Prop where
  banked : Banked policy s.manager
  owned : ∀ k, Owned policy (classOf k) s.manager k
  past : ∀ k w v, s.last k = some (w, v) → w ≤ s.clock
  holds : ∀ k w v c, s.last k = some (w, v) → policy.class? (classOf k) = .ok c →
    c.retained = true → c.Within w s.clock → Holds policy c s.manager k w v

theorem start_inv {sink : Bool} {m : Manager} (h : create policy sink = .ok m) :
    Inv policy classOf (start m) where
  banked := create_banked h
  owned := fun k => by
    unfold create at h
    split at h <;> cases h
    exact ⟨(fun _ h => by cases h), (fun _ _ h => by cases h)⟩
  past := fun k w v h => by cases h
  holds := fun k w v c h => by cases h

/-- What one step does, guard included. -/
theorem step_cases {a : IterOrder × MemoryOp} (h : s.step policy a = some t) :
    s.clock ≤ a.2.now?.getD s.clock ∧ t.clock = a.2.now?.getD s.clock ∧
    t.manager = a.2.run policy (.reliable a.1) s.manager ∧
    ((∃ key value className now, a.2 = .upsert key value className now ∧
        (s.manager.upsertAt policy (.reliable a.1) key value className now).1 = .ok () ∧
        t.last = Function.update s.last key (some (now, value))) ∨
      (∃ key value className now e, a.2 = .upsert key value className now ∧
        (s.manager.upsertAt policy (.reliable a.1) key value className now).1 = .error e ∧
        t.last = s.last) ∨
      (∃ key, a.2 = .remove key ∧ t.last = Function.update s.last key none) ∨
      (∃ key now, a.2 = .get key now ∧ t.last = s.last) ∨
      a.2.key? = none ∧ t.last = s.last) := by
  unfold step at h
  simp only at h
  split at h
  · cases h
  next hle =>
    cases h
    refine ⟨Nat.le_of_not_lt hle, rfl, rfl, ?_⟩
    obtain ⟨order, op⟩ := a
    cases op with
    | upsert key value className now =>
      cases hr : (s.manager.upsertAt policy (.reliable order) key value className now).1 with
      | ok u => exact .inl ⟨key, value, className, now, rfl, hr, by simp only [hr]⟩
      | error e =>
        exact .inr (.inl ⟨key, value, className, now, e, rfl, hr, by simp only [hr]⟩)
    | remove key => exact .inr (.inr (.inl ⟨key, rfl, rfl⟩))
    | get key now => exact .inr (.inr (.inr (.inl ⟨key, now, rfl, rfl⟩)))
    | notifyPressure now => exact .inr (.inr (.inr (.inr ⟨rfl, rfl⟩)))
    | poll now => exact .inr (.inr (.inr (.inr ⟨rfl, rfl⟩)))

/-- The clauses of `Inv` about one key, across a step. -/
structure KeyKept (policy : MemoryPolicy) (classOf : String → String) (s t : Timed) (k : String) :
    Prop where
  owned : Owned policy (classOf k) t.manager k
  past : ∀ w v, t.last k = some (w, v) → w ≤ t.clock
  holds : ∀ w v c, t.last k = some (w, v) → policy.class? (classOf k) = .ok c →
    c.retained = true → c.Within w t.clock → Holds policy c t.manager k w v

theorem within_of_le {c : ClassPolicy} {w now later : ℕ} (hle : now ≤ later)
    (h : c.Within w later) : c.Within w now :=
  fun ttl httl => Nat.lt_of_le_of_lt hle (h ttl httl)

/-- A step whose operation is not about the key. -/
theorem kept_other (hp : policy.CachesLower) (hi : Inv policy classOf s)
    {a : IterOrder × MemoryOp} (hs : s.step policy a = some t) {k : String}
    (hk : a.2.key? ≠ some k) : KeyKept policy classOf s t k := by
  obtain ⟨hle, hclock, hman, hlast⟩ := step_cases hs
  have hsame : t.last k = s.last k := by
    rcases hlast with ⟨key, value, cn, now, ha, _, hl⟩ | ⟨key, value, cn, now, e, ha, _, hl⟩ |
      ⟨key, ha, hl⟩ | ⟨key, now, ha, hl⟩ | ⟨_, hl⟩
    · rw [ha] at hk
      rw [hl, Function.update_of_ne fun he => hk (congrArg some he.symm)]
    · rw [hl]
    · rw [ha] at hk
      rw [hl, Function.update_of_ne fun he => hk (congrArg some he.symm)]
    · rw [hl]
    · rw [hl]
  obtain ⟨u, h1, h2⟩ := run_effect policy a.1 s.manager a.2 t.clock
    (fun n hn => by rw [hclock, hn]; rfl) hk
  rw [← hman] at h2
  have howned := h1.owned (hi.owned k)
  refine ⟨h2.owned howned, fun w v hw => ?_, fun w v c hw hc hr hin => ?_⟩
  · have := hi.past k w v (hsame ▸ hw)
    omega
  · rw [hsame] at hw
    have hin' : c.Within w s.clock := within_of_le (by omega) hin
    have hheld := hi.holds k w v c hw hc hr hin'
    exact h2.holds hp hc hr howned hin (h1.holds hp hc hr (hi.owned k) hin hheld)

/-- A step whose operation is about the key. -/
theorem kept_own (hi : Inv policy classOf s) {a : IterOrder × MemoryOp}
    (hs : s.step policy a = some t) (hclass : KeepsClass classOf s a) {k : String}
    (hk : a.2.key? = some k) : KeyKept policy classOf s t k := by
  obtain ⟨order, op⟩ := a
  obtain ⟨hle, hclock, hman, hlast⟩ := step_cases hs
  simp only at hle hclock hman hlast hk
  rcases hlast with ⟨key, value, cn, now, rfl, hok, hl⟩ | ⟨key, value, cn, now, e, rfl, herr, hl⟩ |
    ⟨key, rfl, hl⟩ | ⟨key, now, rfl, hl⟩ | ⟨hnone, _⟩
  · cases Option.some.inj hk
    obtain rfl : cn = classOf k := hclass
    obtain ⟨ho, hh⟩ := upsert_owned hi.banked (hi.owned k) hok
    simp only [MemoryOp.run] at hman
    rw [← hman] at ho hh
    have hnow : t.clock = now := hclock
    refine ⟨ho, fun w v hw => ?_, fun w v c hw hc _ _ => ?_⟩ <;>
      rw [hl, Function.update_self] at hw <;> cases hw
    · exact le_of_eq hnow.symm
    · exact hh c hc
  · cases Option.some.inj hk
    obtain ⟨_, hhot, hcopy⟩ := upsert_refused hi.banked herr
    simp only [MemoryOp.run] at hman
    rw [← hman] at hhot hcopy
    refine ⟨⟨fun x hx => (hi.owned k).hot x (hhot ▸ hx), fun T x hx =>
      (hi.owned k).copy T x (hcopy T ▸ hx)⟩, fun w v hw => ?_, fun w v c hw hc hr hin => ?_⟩ <;>
      rw [hl] at hw
    · exact (hi.past k w v hw).trans (by omega)
    · have hheld := hi.holds k w v c hw hc hr (within_of_le (by omega) hin)
      simpa only [Holds, hhot, hcopy] using hheld
  · cases Option.some.inj hk
    obtain ⟨hhot, hcopy, _, _⟩ := remove_reliable order s.manager k k
    simp only [MemoryOp.run] at hman
    rw [← hman, if_pos rfl] at hhot
    simp only [← hman, if_true] at hcopy
    refine ⟨⟨fun e he => ?_, fun T x hx => ?_⟩, fun w v hw => ?_, fun w v c hw _ _ _ => ?_⟩
    · rw [hhot] at he
      cases he
    · rw [hcopy] at hx
      cases hx
    all_goals
      rw [hl, Function.update_self] at hw
      cases hw
  · cases Option.some.inj hk
    simp only [MemoryOp.run] at hman
    have hnow : t.clock = now := hclock
    have ho := getAt_owned order now (hi.owned k)
    rw [← hman] at ho
    refine ⟨ho, fun w v hw => ?_, fun w v c hw hc hr hin => ?_⟩ <;> rw [hl] at hw
    · exact (hi.past k w v hw).trans (by omega)
    · have hheld := hi.holds k w v c hw hc hr (within_of_le (by omega) hin)
      have hpast := hi.past k w v hw
      rw [hman]
      exact getAt_holds order hc (hi.owned k) (hnow ▸ hin) hheld (by omega)
  · rw [hnone] at hk
    cases hk

theorem step_inv (hp : policy.CachesLower) (hi : Inv policy classOf s)
    {a : IterOrder × MemoryOp} (hs : s.step policy a = some t)
    (hclass : KeepsClass classOf s a) : Inv policy classOf t := by
  have hkept : ∀ k, KeyKept policy classOf s t k := fun k => by
    by_cases hk : a.2.key? = some k
    · exact kept_own hi hs hclass hk
    · exact kept_other hp hi hs hk
  refine ⟨?_, fun k => (hkept k).owned, fun k => (hkept k).past, fun k => (hkept k).holds⟩
  rw [(step_cases hs).2.2.1]
  exact hi.banked.run a.1 a.2

end Timed

/-- The value of the last write of a key of a retained class is read until the
ttl of its class is over. -/
theorem reads_retained {policy : MemoryPolicy} (hp : policy.CachesLower) {sink : Bool}
    {m : Manager} (hm : Manager.create policy sink = .ok m) (classOf : String → String)
    {s : Timed} (h : (Timed.machine policy).Reach (Timed.KeepsClass classOf) (.start m) s)
    {key : String} {written : ℕ} {value : Value} (hlast : s.last key = some (written, value))
    {c : ClassPolicy} (hc : policy.class? (classOf key) = .ok c) (hr : c.retained = true)
    (order : IterOrder) {now : ℕ} (hnow : s.clock ≤ now) (hw : c.Within written now) :
    (s.manager.getAt policy (.reliable order) key now).1 = some value := by
  have hinv : Timed.Inv policy classOf s := h.invariant (Timed.start_inv hm)
    fun u a t hi hok hs => Timed.step_inv hp hi hs hok
  have hheld := hinv.holds key written value c hlast hc hr (Timed.within_of_le hnow hw)
  rw [Manager.getAt_value]
  exact Manager.lookup_of_holds hc (hinv.owned key) hw hheld

/-- A value demoted to Cold is read within the ttl. -/
theorem reads_retained_after_demotion :
    ∃ s, (Timed.machine coldPolicy).exec (.start coldStart.manager)
        [(.asStored, .upsert "EURUSD" one "quotes" 0), (.asStored, .notifyPressure 1)] = some s ∧
      s.manager.hot.get? "EURUSD" = none ∧
      (s.manager.getAt coldPolicy (.reliable .asStored) "EURUSD" 99).1 = some one := by
  have hlower : coldPolicy.CachesLower := by
    intro c hc _
    obtain rfl := List.mem_singleton.mp hc
    exact ⟨.cold, rfl, rfl⟩
  obtain ⟨s, hs⟩ : ∃ s, (Timed.machine coldPolicy).exec (.start coldStart.manager)
    [(.asStored, .upsert "EURUSD" one "quotes" 0), (.asStored, .notifyPressure 1)] = some s :=
    ⟨_, rfl⟩
  have hread : (s.manager.hot.get? "EURUSD", s.last "EURUSD", s.clock) =
      (none, some (0, one), 1) := by
    cases hs
    rfl
  have hnew : Manager.create coldPolicy false = .ok coldStart.manager := rfl
  refine ⟨s, hs, congrArg Prod.fst hread, reads_retained hlower hnew
    (fun _ => "quotes") (.of_exec _ hs ?_) (congrArg (fun x => x.2.1) hread) rfl rfl .asStored
    (le_of_eq_of_le (congrArg (fun x => x.2.2) hread) (by decide)) ?_⟩
  · intro a ha u
    simp only [List.mem_cons, List.not_mem_nil, or_false] at ha
    rcases ha with rfl | rfl
    · rfl
    · trivial
  · intro ttl httl
    cases httl
    decide

/-- A volatile class beside nothing else. -/
def volatileClass : ClassPolicy where
  name := "ticks"
  policy := .volatile
  temperature := .hot
  ttl := some 100
  flush := none
  priority := .normal
  demoteAfter := none

/-- One volatile class with room for one entry. -/
def volatilePolicy : MemoryPolicy where
  maxEntries := 1
  maxHotBytes := 1024
  maxPendingDeferred := 8
  backends := ⟨false, false, false⟩
  classes := ⟨[volatileClass], by decide⟩
  accepted := by
    intro c hc
    obtain rfl := List.mem_singleton.mp hc
    constructor <;> simp [volatileClass]
  maxEntries_pos := Nat.one_pos
  maxHotBytes_pos := sampleBytes_pos
  maxPendingDeferred_pos := samplePending_pos

/-- A volatile entry that is evicted for another key is gone within its ttl. -/
theorem volatile_lost_by_eviction :
    volatilePolicy.CachesLower ∧
    ∃ m s, Manager.create volatilePolicy false = .ok m ∧
      (Timed.machine volatilePolicy).exec (.start m)
        [(.asStored, .upsert "EURUSD" one "ticks" 0),
          (.asStored, .upsert "GBPUSD" two "ticks" 1)] = some s ∧
      s.last "EURUSD" = some (0, one) ∧ volatileClass.Within 0 2 ∧
      (s.manager.getAt volatilePolicy (.reliable .asStored) "EURUSD" 2).1 = none := by
  refine ⟨?_, _, _, rfl, rfl, rfl, ?_, rfl⟩
  · intro c hc hpol
    obtain rfl := List.mem_singleton.mp hc
    cases hpol
  · intro ttl httl
    cases httl
    decide

end Jaiba.Memory
