import Jaiba.Memory.Atomicity
import Jaiba.Memory.Removal

/-!
# Keyed API (`upsert_keyed`, `get_keyed`, `processors/domain_memory.rs`)

The processors address an object by its class and an id, any string a packet
brings; every tier stores it under the one string `class:id`.
-/

namespace Jaiba.Memory
open Jaiba.Lib

/-- A class and an id in it. -/
structure KeyedId where
  className : String
  id : String
  deriving Repr, DecidableEq

namespace KeyedId

/-- `format!("{class}:{id}")`. -/
def key (p : KeyedId) : String := p.className ++ ":" ++ p.id

/-- One class is the other one, a colon and more, and the ids make up for it. -/
def Overlaps (p q : KeyedId) : Prop :=
  ∃ rest, q.className = p.className ++ ":" ++ rest ∧ p.id = rest ++ ":" ++ q.id ∨
    p.className = q.className ++ ":" ++ rest ∧ q.id = rest ++ ":" ++ p.id

theorem eq_of_colon {c c' i i' a : List Char} (hc : c' = c ++ a) (h : ':' :: i = a ++ ':' :: i') :
    c' = c ∧ i = i' ∨ ∃ rest, c' = c ++ ':' :: rest ∧ i = rest ++ ':' :: i' := by
  cases a with
  | nil =>
    cases h
    exact .inl ⟨by rw [hc, List.append_nil], rfl⟩
  | cons x rest =>
    cases h
    exact .inr ⟨rest, hc, rfl⟩

theorem toList_key (p : KeyedId) : p.key.toList = p.className.toList ++ ':' :: p.id.toList := by
  rw [key, String.toList_append, String.toList_append, List.append_assoc]
  rfl

theorem join_eq_iff {s c rest : String} :
    s = c ++ ":" ++ rest ↔ s.toList = c.toList ++ ':' :: rest.toList := by
  rw [← String.toList_inj, String.toList_append, String.toList_append, List.append_assoc]
  rfl

/-- Two pairs are stored under one key exactly when they overlap. -/
theorem key_eq_iff {p q : KeyedId} (hne : p ≠ q) : p.key = q.key ↔ p.Overlaps q := by
  have hlists : ∀ {a b : KeyedId} {rest : List Char},
      b.className.toList = a.className.toList ++ ':' :: rest ∧ a.id.toList = rest ++ ':' :: b.id.toList →
      b.className = a.className ++ ":" ++ String.ofList rest ∧
        a.id = String.ofList rest ++ ":" ++ b.id := by
    intro a b rest h
    rw [join_eq_iff, join_eq_iff, String.toList_ofList]
    exact h
  have hsame : ∀ {a b : KeyedId}, b.className.toList = a.className.toList →
      a.id.toList = b.id.toList → a = b := by
    rintro ⟨c, i⟩ ⟨c', i'⟩ hc hi
    cases String.toList_inj.mp hc
    cases String.toList_inj.mp hi
    rfl
  rw [← String.toList_inj, toList_key, toList_key]
  constructor
  · intro h
    rcases List.append_eq_append_iff.mp h with ⟨a, hc, hi⟩ | ⟨a, hc, hi⟩
    · rcases eq_of_colon hc hi with ⟨hc, hi⟩ | ⟨rest, hrest⟩
      · exact absurd (hsame hc hi) hne
      · exact ⟨String.ofList rest, .inl (hlists hrest)⟩
    · rcases eq_of_colon hc hi with ⟨hc, hi⟩ | ⟨rest, hrest⟩
      · exact absurd (hsame hc hi).symm hne
      · exact ⟨String.ofList rest, .inr (hlists hrest)⟩
  · rintro ⟨rest, ⟨hc, hi⟩ | ⟨hc, hi⟩⟩
    · rw [join_eq_iff.mp hc, join_eq_iff.mp hi]
      simp
    · rw [join_eq_iff.mp hc, join_eq_iff.mp hi]
      simp

end KeyedId

namespace Manager

variable (policy : MemoryPolicy) (platform : Platform)

def upsertKeyed (s : Manager) (p : KeyedId) (value : Value) (now : ℕ) : Outcome Unit :=
  s.upsertAt policy platform p.key value p.className now

def getKeyed (s : Manager) (p : KeyedId) (now : ℕ) : Option Value × Manager :=
  s.getAt policy platform p.key now

/-- `memory_remove`. -/
def removeKeyed (s : Manager) (p : KeyedId) : Bool × Manager := s.remove platform p.key

end Manager

/-- What a flow does with its memory, maintenance and restarts among it. -/
inductive KeyedOp where
  | upsert (p : KeyedId) (value : Value) (now : ℕ)
  | get (p : KeyedId) (now : ℕ)
  | remove (p : KeyedId)
  | notifyPressure (now : ℕ)
  | poll (now : ℕ)
  | flush (now : ℕ)
  | reopen (now : ℕ)

namespace KeyedOp

def run (policy : MemoryPolicy) (platform : Platform) (m : Manager) : KeyedOp → Manager
  | .upsert p value now => (m.upsertKeyed policy platform p value now).2
  | .get p now => (m.getKeyed policy platform p now).2
  | .remove p => (m.removeKeyed platform p).2
  | .notifyPressure now => LifeOp.run policy platform m (.memory (.notifyPressure now))
  | .poll now => LifeOp.run policy platform m (.memory (.poll now))
  | .flush now => LifeOp.run policy platform m (.flush now)
  | .reopen now => LifeOp.run policy platform m (.reopen now)

/-- A value that only the object `p` is ever given. -/
def Gives (p : KeyedId) (v : Value) : KeyedOp → Prop
  | .upsert q value _ => value = v → q = p
  | _ => True

end KeyedOp

/-- Histories of the keyed API, in which any call may fail. -/
def keyedLife (policy : MemoryPolicy) : Machine Manager (Platform × KeyedOp) :=
  ⟨fun m a => some (a.2.run policy a.1 m)⟩

/-- What is done with `p` leaves the object `q` alone: it is not read under the
other name, not overwritten and not removed. Other objects are evicted as
`Effect` allows. -/
structure Isolated (policy : MemoryPolicy) (p q : KeyedId) : Prop where
  reads : ∀ v sink m t, Manager.create policy sink = .ok m →
    (keyedLife policy).Reach (fun _ a => a.2.Gives q v) m t →
    ∀ platform now, (t.getKeyed policy platform p now).1 ≠ some v
  get : ∀ (s : Manager) platform now, ∃ u, Manager.Effect policy s u now q.key ∧
    Manager.Effect policy u (s.getKeyed policy platform p now).2 now q.key
  upsert : ∀ (s : Manager) platform value now,
    Manager.Effect policy s (s.upsertKeyed policy platform p value now).2 now q.key
  remove : ∀ (s : Manager) platform,
    (s.removeKeyed platform p).2.hot.get? q.key = s.hot.get? q.key ∧
      ∀ T, (s.removeKeyed platform p).2.copy T q.key = s.copy T q.key

namespace Manager

/-! ### The values stored under one key -/

section values
variable {policy : MemoryPolicy} {platform : Platform} {s t : Manager} {k : String}
  {P : Value → Prop}

/-- Whatever a tier holds under the key satisfies `P`. -/
structure Holding (P : Value → Prop) (s : Manager) (k : String) : Prop where
  hot : ∀ e, s.hot.get? k = some e → P e.value
  copies : ∀ T entry, s.copy T k = some entry → P entry.value

theorem Effect.holding {now : ℕ} (h : Effect policy s t now k) (hp : Holding P s k) :
    Holding P t k where
  hot := fun e he => by
    rcases h.hot with hh | hh | ⟨hh, _⟩
    · exact hp.hot e (hh ▸ he)
    · rw [hh] at he
      exact hp.hot e (Option.filter_eq_some_iff.mp he).1
    · rw [hh] at he
      cases he
  copies := fun T entry hentry => by
    rcases h.copies T with hc | ⟨e, he, _, hc⟩
    · exact hp.copies T entry (hc ▸ hentry)
    · rw [hc] at hentry
      cases hentry
      exact hp.hot e he

theorem touched_holding (hp : Holding P s k) (platform : Platform) (key : String) (now : ℕ) :
    Holding P (touched platform s key now) k where
  hot := fun e he => by
    rw [touched_get?] at he
    obtain ⟨e', he', heq⟩ := Option.map_eq_some_iff.mp he
    have hold := hp.hot e' (Option.filter_eq_some_iff.mp he').1
    rw [← heq]
    split
    · exact hold
    · exact hold
  copies := fun T entry hentry => hp.copies T entry (touched_copy platform s key now T k ▸ hentry)

theorem promoteFrom_cases (policy : MemoryPolicy) (platform : Platform) (s : Manager) (tier : Tier)
    (key : String) (now : ℕ) :
    s.promoteFrom policy platform tier key now = (none, s) ∨
      ∃ entry, s.copy tier key = some entry ∧ s.promoteFrom policy platform tier key now =
        (some entry.value, s.promote policy platform key entry now) := by
  unfold promoteFrom tierGet
  cases platform.fault (.get tier key) with
  | some e => exact .inl rfl
  | none =>
    cases hcopy : Dict.get? (s.tiers tier) key with
    | none => exact .inl rfl
    | some entry => exact .inr ⟨entry, hcopy, rfl⟩

/-- Whatever calls fail, a read promotes at most one copy of its key. -/
theorem getAt_cases (policy : MemoryPolicy) (platform : Platform) (s : Manager) (key : String)
    (now : ℕ) :
    (s.getAt policy platform key now).2 = touched platform s key now ∨
      ∃ T entry, s.copy T key = some entry ∧ (s.getAt policy platform key now).2 =
        (touched platform s key now).promote policy platform key entry now := by
  unfold getAt
  simp only
  split
  next value hot hget =>
    rw [touched, hget]
    exact .inl rfl
  next hot hget =>
    have htouched : touched platform s key now =
        { (s.flushDeferredAt platform now false).2 with hot := hot } := by
      rw [touched, hget]
    rw [← htouched]
    rcases promoteFrom_cases policy platform (touched platform s key now) .warm key now with
      hw | ⟨entry, hcopy, hw⟩
    · rcases promoteFrom_cases policy platform (touched platform s key now) .cold key now with
        hc | ⟨entry, hcopy, hc⟩
      · rcases promoteFrom_cases policy platform (touched platform s key now) .frozen key now with
          hf | ⟨entry, hcopy, hf⟩
        · simp only [hw, hc, hf, true_or]
        · simp only [hw, hc, hf]
          exact .inr ⟨.frozen, entry, touched_copy platform s key now _ _ ▸ hcopy, rfl⟩
      · simp only [hw, hc]
        exact .inr ⟨.cold, entry, touched_copy platform s key now _ _ ▸ hcopy, rfl⟩
    · simp only [hw]
      exact .inr ⟨.warm, entry, touched_copy platform s key now _ _ ▸ hcopy, rfl⟩

theorem promote_holding (hp : Holding P s k) {key : String} {entry : TierEntry}
    (hentry : k = key → P entry.value) (now : ℕ) :
    Holding P (s.promote policy platform key entry now) k := by
  obtain ⟨hother, hcopies, -, -, hhot⟩ := promote_spec policy platform s key entry now
  by_cases hk : k = key
  · subst hk
    refine ⟨fun e he => ?_, fun T entry' he => hp.copies T entry' (hcopies T ▸ he)⟩
    rcases hhot with hhot | ⟨c, -, hhot⟩
    · exact hp.hot e (hhot ▸ he)
    · rw [hhot] at he
      cases he
      exact hentry rfl
  · exact (hother k hk).holding hp

theorem getAt_holding (hp : Holding P s k) (key : String) (now : ℕ) :
    Holding P (s.getAt policy platform key now).2 k := by
  have htouched := touched_holding hp platform key now
  rcases getAt_cases policy platform s key now with h | ⟨T, entry, hentry, h⟩
  · rw [h]
    exact htouched
  · rw [h]
    refine promote_holding htouched (fun hk => ?_) now
    subst hk
    exact hp.copies T entry hentry

/-- A read of another key: its expiry and its promotion, one after the other. -/
theorem getAt_other (policy : MemoryPolicy) (platform : Platform) (s : Manager) {key : String}
    (hk : k ≠ key) (now : ℕ) : ∃ u, Effect policy s u now k ∧
      Effect policy u (s.getAt policy platform key now).2 now k := by
  refine ⟨touched platform s key now, touched_effect s key now hk, ?_⟩
  rcases getAt_cases policy platform s key now with h | ⟨T, entry, -, h⟩
  · rw [h]
    exact .of_same rfl fun _ => rfl
  · rw [h]
    exact (promote_spec _ _ _ key entry now).1 k hk

/-- A read returns a value stored under its key. -/
theorem getAt_value_holding (hp : Holding P s k) (now : ℕ) {v : Value}
    (h : (s.getAt policy platform k now).1 = some v) : P v := by
  have htier : ∀ T entry, s.tierGet platform T k = some entry → P entry.value := by
    intro T entry hentry
    unfold tierGet at hentry
    split at hentry
    · cases hentry
    · exact hp.copies T entry hentry
  rw [getAt_fst] at h
  rcases Option.or_eq_some_iff.mp h with hhot | ⟨-, hlow⟩
  · obtain ⟨e, he, rfl⟩ := Option.map_eq_some_iff.mp hhot
    exact hp.hot e (Option.filter_eq_some_iff.mp he).1
  · obtain ⟨entry, hentry, rfl⟩ := Option.map_eq_some_iff.mp hlow
    rcases Option.or_eq_some_iff.mp hentry with hab | ⟨-, hf⟩
    · rcases Option.or_eq_some_iff.mp hab with hw | ⟨-, hc⟩
      · exact htier .warm entry hw
      · exact htier .cold entry hc
    · exact htier .frozen entry hf

theorem settle_own (policy : MemoryPolicy) (platform : Platform) (s : Manager) (key : String)
    (value : Value) (c : ClassPolicy) (now : ℕ) (T : Tier) :
    (s.settle policy platform key value c now).2.copy T key = s.copy T key ∨
      (s.settle policy platform key value c now).2.copy T key = some ⟨c.name, value⟩ := by
  unfold settle
  split
  · exact .inl rfl
  · exact .inl rfl
  · simp only
    split <;> rename_i hf <;> have hf := congrArg Prod.snd hf <;> subst hf
    all_goals exact .inl (flush_copy _ now _ T key)
  · split <;> rename_i hf <;> have hf := congrArg Prod.snd hf <;> subst hf
    all_goals exact .inl (flush_copy _ now _ T key)
  · have hm : ∀ r : Outcome Unit, (if c.mirrorsWarm then
        s.tierPut policy platform .warm key ⟨c.name, value⟩ else (.ok (), s)) = r →
        r.2.copy T key = s.copy T key ∨ r.2.copy T key = some ⟨c.name, value⟩ := by
      intro r hr
      subst hr
      split_ifs
      · exact (tierPut_wrote policy platform s .warm key ⟨c.name, value⟩).own T
      · exact .inl rfl
    split
    next e t ht => exact hm _ ht
    next t ht =>
      have hcopy := hm _ ht
      split <;> rename_i hf <;> have hf := congrArg Prod.snd hf <;> subst hf
      all_goals rw [flush_copy t now _ T key]; exact hcopy

/-- After the commit the copies of the key are as they were, or the value written. -/
theorem publish_own (policy : MemoryPolicy) (platform : Platform) (s : Manager) (key : String)
    (value : Value) (c : ClassPolicy) (now : ℕ) (T : Tier) :
    (s.publish policy platform key value c now).2.copy T key = s.copy T key ∨
      (s.publish policy platform key value c now).2.copy T key = some ⟨c.name, value⟩ := by
  have hsettle := settle_own policy platform s key value c now T
  unfold publish
  split
  next e t ht =>
    rw [ht] at hsettle
    exact hsettle
  next t ht =>
    rw [ht] at hsettle
    unfold archive
    split_ifs
    · rcases (tierPut_wrote policy platform t .frozen key ⟨c.name, value⟩).own T with h | h
      · rw [h]
        exact hsettle
      · exact .inr h
    · exact hsettle

theorem enterHot_holding (hp : Holding P s k) (key : String) {value : Value} (hv : k = key → P value)
    (c : ClassPolicy) (now : ℕ) :
    Holding P (s.enterHot policy platform key value c now).2 k := by
  have hadm := (enterHot_admitted policy platform s key value c now).1
  by_cases hk : k = key
  · subst hk
    refine ⟨fun e he => ?_, fun T entry he => hp.copies T entry (hadm.copies T ▸ he)⟩
    by_cases hok : (s.enterHot policy platform k value c now).1 = .ok ()
    · rw [hadm.committed hok] at he
      cases he
      exact hv rfl
    · rw [hadm.refused hok] at he
      exact hp.hot e he
  · exact (hadm.effect k hk).holding hp

theorem upsertAt_holding (hp : Holding P s k) (key : String) {value : Value} (hv : k = key → P value)
    (className : String) (now : ℕ) :
    Holding P (s.upsertAt policy platform key value className now).2 k := by
  unfold upsertAt
  split
  · exact hp
  next c _ =>
    have hhot : Holding P (s.enterHot policy platform key value c now).2 k :=
      enterHot_holding hp key hv c now
    split
    next e t ht =>
      rw [ht] at hhot
      exact hhot
    next t ht =>
      rw [ht] at hhot
      obtain ⟨hsame, hother⟩ := publish_frame policy platform t key value c now
      refine ⟨fun e he => hhot.hot e (hsame ▸ he), fun T entry he => ?_⟩
      by_cases hk : k = key
      · subst hk
        rcases publish_own policy platform t k value c now T with h | h
        · exact hhot.copies T entry (h ▸ he)
        · rw [h] at he
          cases he
          exact hv rfl
      · rw [hother T k hk] at he
        exact hhot.copies T entry he

theorem remove_holding (hp : Holding P s k) (key : String) :
    Holding P (s.remove platform key).2 k := by
  obtain ⟨hhot, hcopy, -, -⟩ := remove_spec platform s key k
  refine ⟨fun e he => ?_, fun T entry he => ?_⟩
  · rw [hhot] at he
    split_ifs at he
    exact hp.hot e he
  · rw [hcopy] at he
    split_ifs at he
    exact hp.copies T entry he

end values

end Manager

namespace KeyedOp
open Manager

variable {policy : MemoryPolicy} {platform : Platform} {s : Manager} {k : String} {P : Value → Prop}

/-- The values stored under a key are those it is given. -/
theorem run_holding (hp : Holding P s k) {op : KeyedOp}
    (hop : ∀ p value now, op = .upsert p value now → k = p.key → P value) :
    Holding P (op.run policy platform s) k := by
  cases op with
  | upsert p value now => exact upsertAt_holding hp p.key (hop p value now rfl) p.className now
  | get p now => exact getAt_holding hp p.key now
  | remove p => exact remove_holding hp p.key
  | notifyPressure now => exact (notifyPressure_effect s now k).holding hp
  | poll now => exact (poll_effect s now k).holding hp
  | flush now =>
    refine ⟨fun e he => hp.hot e ?_, fun T entry he => hp.copies T entry ?_⟩
    · rwa [run, LifeOp.run, (flush_frame platform s now true).1] at he
    · rwa [run, LifeOp.run, flush_copy] at he
  | reopen now =>
    refine ⟨fun e he => (by cases he), fun T entry he => hp.copies T entry ?_⟩
    exact (flush_copy s now true T k).symm.trans he

end KeyedOp

/-! ### Isolation -/

theorem create_holding {policy : MemoryPolicy} {sink : Bool} {m : Manager} (P : Value → Prop)
    (h : Manager.create policy sink = .ok m) (k : String) : m.Holding P k := by
  unfold Manager.create at h
  split at h <;> cases h
  exact ⟨fun e he => (by cases he), fun T entry he => (by cases he)⟩

variable {policy : MemoryPolicy} {p q : KeyedId}

theorem isolated_of_ne (policy : MemoryPolicy) (hkey : p.key ≠ q.key) : Isolated policy p q where
  reads := fun v sink m t hm hrun platform now hread => by
    have hhold : t.Holding (fun w => w ≠ v) p.key := by
      refine Machine.Reach.invariant (I := fun s : Manager => s.Holding (fun w => w ≠ v) p.key) hrun
        (create_holding _ hm _) fun s a u hs hgives hstep => ?_
      cases Option.some.inj hstep
      refine KeyedOp.run_holding hs fun r value now hop hr hvalue => ?_
      rw [hop] at hgives
      rw [hgives hvalue] at hr
      exact hkey hr
    exact Manager.getAt_value_holding hhold now hread rfl
  get := fun s platform now => Manager.getAt_other policy platform s hkey.symm now
  upsert := fun s platform value now =>
    Manager.upsertAt_effect s p.key value p.className now hkey.symm
  remove := fun s platform => by
    obtain ⟨hhot, hcopy, -, -⟩ := Manager.remove_spec platform s p.key q.key
    refine ⟨hhot.trans (if_neg hkey.symm), fun T => ?_⟩
    rw [Manager.removeKeyed, hcopy, if_neg fun h => hkey h.1.symm]

/-- One object in Hot and nothing else. -/
def Manager.single (key : String) (value : Value) : Manager where
  hot := ⟨Dict.insert Dict.empty key ⟨"", value, .normal, none, 0, 1, none, 1⟩, 1, 1⟩
  tiers := fun _ => Dict.empty
  sink := none
  deferred := ⟨OrderedDict.empty, 1⟩

theorem Isolated.key_ne (h : Isolated policy p q) : p.key ≠ q.key := by
  intro hkey
  have hkept := (h.remove (.single q.key .null) (.reliable .asStored)).1
  rw [Manager.removeKeyed, (Manager.remove_spec _ _ p.key q.key).1, if_pos hkey.symm] at hkept
  rw [Manager.single, HotStore.get?, Dict.get?_insert_self] at hkept
  cases hkept

/-- Two objects are isolated exactly when their classes and ids do not overlap
at a colon. -/
theorem isolated_iff_not_overlaps (policy : MemoryPolicy) (p q : KeyedId) (hne : p ≠ q) :
    Isolated policy p q ↔ ¬ p.Overlaps q := by
  rw [← KeyedId.key_eq_iff hne]
  exact ⟨Isolated.key_ne, isolated_of_ne policy⟩

theorem isolated_orders_ticks : Isolated sinkPolicy ⟨"orders", "7:1"⟩ ⟨"ticks", "1"⟩ := by
  refine (isolated_iff_not_overlaps sinkPolicy _ _ (by decide)).mpr fun h => ?_
  have hkey := (KeyedId.key_eq_iff (by decide)).mpr h
  exact absurd hkey (by decide +kernel)

/-- A policy isolates all its objects exactly when none of its class names is
another one followed by a colon. -/
theorem isolated_all_iff (policy : MemoryPolicy) :
    (∀ p q : KeyedId, p ≠ q → (policy.classes.find? p.className).isSome →
      (policy.classes.find? q.className).isSome → Isolated policy p q) ↔
    ∀ c c', (policy.classes.find? c).isSome → (policy.classes.find? c').isSome →
      ∀ rest, c' ≠ c ++ ":" ++ rest := by
  constructor
  · rintro h c c' hc hc' rest rfl
    have hne : (⟨c, rest ++ ":" ++ ""⟩ : KeyedId) ≠ ⟨c ++ ":" ++ rest, ""⟩ := by
      intro he
      have hlen := congrArg String.length (KeyedId.mk.inj he).1
      rw [String.length_append, String.length_append] at hlen
      have hcolon : ":".length = 1 := rfl
      omega
    refine (h _ _ hne hc hc').key_ne ((KeyedId.key_eq_iff hne).mpr ⟨rest, .inl ⟨rfl, rfl⟩⟩)
  · intro h p q hne hp hq
    refine isolated_of_ne policy fun hkey => ?_
    obtain ⟨rest, ⟨hc, -⟩ | ⟨hc, -⟩⟩ := (KeyedId.key_eq_iff hne).mp hkey
    · exact h _ _ hp hq rest hc
    · exact h _ _ hq hp rest hc

/-- Two volatile classes; the name of one continues the other after a colon. -/
def regionalPolicy : MemoryPolicy where
  maxEntries := 4
  maxHotBytes := 1024
  maxPendingDeferred := 8
  backends := ⟨false, false, false⟩
  classes := ⟨[⟨"orders", .volatile, .hot, some 100, none, .normal, none⟩,
    ⟨"orders:eu", .volatile, .hot, some 100, none, .normal, none⟩], by decide⟩
  accepted := by
    intro c hc
    simp only [List.mem_cons, List.not_mem_nil, or_false] at hc
    rcases hc with rfl | rfl <;> constructor <;> simp
  maxEntries_pos := sampleEntries_pos
  maxHotBytes_pos := sampleBytes_pos
  maxPendingDeferred_pos := samplePending_pos

/-- What is stored as `orders` and `eu:7` is read as `orders:eu` and `7`. -/
theorem colon_reads_other_object :
    ∃ m s, Manager.create regionalPolicy false = .ok m ∧
      m.upsertKeyed regionalPolicy (.reliable .asStored) ⟨"orders", "eu:7"⟩ one 0 = (.ok (), s) ∧
      (s.getKeyed regionalPolicy (.reliable .asStored) ⟨"orders:eu", "7"⟩ 1).1 = some one ∧
      ¬ Isolated regionalPolicy ⟨"orders:eu", "7"⟩ ⟨"orders", "eu:7"⟩ := by
  refine ⟨_, _, rfl, rfl, rfl, fun h => ?_⟩
  exact h.key_ne (by decide +kernel)

end Jaiba.Memory
