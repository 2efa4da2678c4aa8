import Jaiba.Memory.Manager

/-!
# What an operation of the manager does to one key

Every operation leaves a key alone, drops its Hot entry when it has expired, or
evicts the entry and copies it to the tier of its class. The proofs about runs
use these facts and never unfold the operations.
-/

namespace Jaiba.Memory
open Jaiba.Lib

/-- The tier a class is demoted to, if any. -/
def ClassPolicy.target (c : ClassPolicy) : Option Tier :=
  if c.archivesFrozen then some .frozen
  else if c.archivesCold then some .cold
  else if c.mirrorsWarm then some .warm
  else none

/-- The copy of a Hot entry in a lower tier. -/
def HotEntry.toTier (e : HotEntry) : TierEntry := ⟨e.className, e.value⟩

namespace Manager

variable (policy : MemoryPolicy) {platform : Platform}

/-- The copy of a key in a lower tier. -/
def copy (s : Manager) (tier : Tier) (key : String) : Option TierEntry :=
  Dict.get? (s.tiers tier) key

/-- The first copy of a key below Hot. -/
def firstCopy (s : Manager) (key : String) : Option TierEntry :=
  ((s.copy .warm key).or (s.copy .cold key)).or (s.copy .frozen key)

def lower (s : Manager) (key : String) : Option Value := (s.firstCopy key).map TierEntry.value

/-- What `get_at` finds when no call fails. -/
def lookup (s : Manager) (key : String) (now : ℕ) : Option Value :=
  (((s.hot.get? key).filter fun e => e.live now).map HotEntry.value).or (s.lower key)

variable {policy} {s t : Manager}

/-- A copy of `key` may have been written as `entry`; all else is as it was. -/
structure Wrote (s t : Manager) (key : String) (entry : TierEntry) : Prop where
  hot : t.hot = s.hot
  sink : t.sink = s.sink
  deferred : t.deferred = s.deferred
  other : ∀ T k, k ≠ key → t.copy T k = s.copy T k
  own : ∀ T, t.copy T key = s.copy T key ∨ t.copy T key = some entry

theorem Wrote.refl (s : Manager) (key : String) (entry : TierEntry) : Wrote s s key entry :=
  ⟨rfl, rfl, rfl, fun _ _ _ => rfl, fun _ => .inl rfl⟩

theorem copy_put (s : Manager) (tier T : Tier) (key k : String) (entry : TierEntry) :
    ({ s with tiers := Function.update s.tiers tier (Dict.insert (s.tiers tier) key entry) } :
      Manager).copy T k = if T = tier ∧ k = key then some entry else s.copy T k := by
  unfold copy
  by_cases hT : T = tier
  · subst hT
    simp only [Function.update_self, Dict.get?_insert, true_and]
  · simp only [Function.update_of_ne hT, hT, false_and, if_false]

theorem tierPut_wrote (policy : MemoryPolicy) (platform : Platform) (s : Manager) (tier : Tier) (key : String) (entry : TierEntry) :
    Wrote s (s.tierPut policy platform tier key entry).2 key entry := by
  unfold tierPut
  split_ifs
  · exact .refl s key entry
  · split
    · exact .refl s key entry
    · exact .refl s key entry
    · refine ⟨rfl, rfl, rfl, fun T k hk => ?_, fun T => ?_⟩
      · rw [copy_put, if_neg fun h => hk h.2]
      · rw [copy_put]
        split
        · exact .inr rfl
        · exact .inl rfl

/-- A put that succeeds on an enabled tier stores the entry, and only there. -/
theorem tierPut_ok {tier : Tier} {key : String} {entry : TierEntry}
    (h : (s.tierPut policy platform tier key entry).1 = .ok ()) (T : Tier) (k : String) :
    (s.tierPut policy platform tier key entry).2.copy T k =
      if policy.backends.enabled tier ∧ T = tier ∧ k = key then some entry else s.copy T k := by
  unfold tierPut at h ⊢
  split_ifs at h ⊢ with hd hc hc
  · exact absurd hc.1 (by simpa using hd)
  · rfl
  · split at h
    · cases h
    · cases h
    · exact (copy_put s tier T key k entry).trans (if_pos hc.2)
  · split at h
    · cases h
    · cases h
    · exact (copy_put s tier T key k entry).trans
        (if_neg fun he => hc ⟨by simpa using hd, he⟩)

/-- A put fails only by a fault or a class clash. -/
theorem tierPut_reliable (policy : MemoryPolicy) (order : IterOrder) (s : Manager) (tier : Tier)
    (key : String) (entry : TierEntry)
    (h : classClash tier (s.copy tier key) key entry = none) :
    (s.tierPut policy (.reliable order) tier key entry).1 = .ok () := by
  unfold tierPut
  unfold copy at h
  split_ifs
  · rfl
  · simp only [h, Platform.reliable]

theorem classClash_none {tier : Tier} (ht : tier ≠ .cold) (existing : Option TierEntry)
    (key : String) (entry : TierEntry) : classClash tier existing key entry = none := by
  cases tier <;> first | rfl | exact absurd rfl ht

/-- The demotion of an entry is a put to the tier of its class, or nothing. -/
theorem demoteOrDrop_eq (s : Manager) (key : String) (e : HotEntry) :
    s.demoteOrDrop policy platform key e =
      match policy.class? e.className with
      | .error _ => (.ok (), s)
      | .ok c =>
        match c.target with
        | none => (.ok (), s)
        | some tier => s.tierPut policy platform tier key e.toTier := by
  unfold demoteOrDrop
  cases policy.class? e.className with
  | error _ => rfl
  | ok c =>
    simp only [ClassPolicy.target, HotEntry.toTier]
    cases c.archivesFrozen <;> cases c.archivesCold <;> cases c.mirrorsWarm <;> rfl

theorem demoteOrDrop_wrote (policy : MemoryPolicy) (platform : Platform) (s : Manager) (key : String) (e : HotEntry) :
    Wrote s (s.demoteOrDrop policy platform key e).2 key e.toTier := by
  rw [demoteOrDrop_eq]
  split
  · exact .refl _ _ _
  · split
    · exact .refl _ _ _
    · exact tierPut_wrote _ _ _ _ _ _

/-- The entry has its copy in the tier of its class, when that tier is enabled. -/
def Stored (policy : MemoryPolicy) (t : Manager) (key : String) (e : HotEntry) : Prop :=
  ∀ c tier, policy.class? e.className = .ok c → c.target = some tier →
    policy.backends.enabled tier = true → t.copy tier key = some e.toTier

/-- The tiers of a class that `e` is demoted to. -/
def TargetOf (policy : MemoryPolicy) (e : HotEntry) (tier : Tier) : Prop :=
  ∃ c, policy.class? e.className = .ok c ∧ c.target = some tier

theorem demoteOrDrop_stored (policy : MemoryPolicy) (platform : Platform) (s : Manager)
    (key : String) (e : HotEntry) (h : (s.demoteOrDrop policy platform key e).1 = .ok ()) :
    Stored policy (s.demoteOrDrop policy platform key e).2 key e := by
  intro c tier hc ht hen
  rw [demoteOrDrop_eq, hc] at h ⊢
  simp only [ht] at h ⊢
  rw [tierPut_ok h, if_pos ⟨hen, rfl, rfl⟩]

/-- A demotion writes only the tier of the class. -/
theorem demoteOrDrop_target (policy : MemoryPolicy) (platform : Platform) (s : Manager) (key : String) (e : HotEntry) (T : Tier) :
    (s.demoteOrDrop policy platform key e).2.copy T key = s.copy T key ∨
      TargetOf policy e T ∧
        (s.demoteOrDrop policy platform key e).2.copy T key = some e.toTier := by
  rw [demoteOrDrop_eq]
  split
  · exact .inl rfl
  next c hc =>
    split
    · exact .inl rfl
    next tier ht =>
      by_cases hT : T = tier
      · subst hT
        rcases (tierPut_wrote policy platform s T key e.toTier).own T with
          h | h
        · exact .inl h
        · exact .inr ⟨⟨c, hc, ht⟩, h⟩
      · refine .inl ?_
        unfold tierPut
        split_ifs
        · rfl
        · split
          · rfl
          · rfl
          · rw [copy_put, if_neg fun h => hT h.1]

/-- Some of the entries may have their copies written; all else is as it was. -/
structure Demoted (policy : MemoryPolicy) (s t : Manager) (victims : List HotItem) : Prop where
  hot : t.hot = s.hot
  sink : t.sink = s.sink
  deferred : t.deferred = s.deferred
  copies : ∀ T k, t.copy T k = s.copy T k ∨
    ∃ e, (k, e) ∈ victims ∧ TargetOf policy e T ∧ t.copy T k = some e.toTier

theorem Demoted.refl (s : Manager) (victims : List HotItem) : Demoted policy s s victims :=
  ⟨rfl, rfl, rfl, fun _ _ => .inl rfl⟩

theorem Demoted.cons {u : Manager} {x : HotItem} {victims : List HotItem}
    (hx : u = (s.demoteOrDrop policy platform x.1 x.2).2) (h : Demoted policy u t victims) :
    Demoted policy s t (x :: victims) := by
  have hw := demoteOrDrop_wrote policy platform s x.1 x.2
  rw [← hx] at hw
  refine ⟨h.hot.trans hw.hot, h.sink.trans hw.sink, h.deferred.trans hw.deferred, fun T k => ?_⟩
  rcases h.copies T k with hk | ⟨e, he, ht, hk⟩
  · by_cases hkx : k = x.1
    · subst hkx
      rcases demoteOrDrop_target policy platform s x.1 x.2 T with
        hs | ⟨ht, hs⟩
      · exact .inl (hk.trans (hx ▸ hs))
      · exact .inr ⟨x.2, List.mem_cons_self, ht, hk.trans (hx ▸ hs)⟩
    · exact .inl (hk.trans (hw.other T k hkx))
  · exact .inr ⟨e, List.mem_cons_of_mem _ he, ht, hk⟩

theorem demoteVictims_demoted (policy : MemoryPolicy) (platform : Platform) (s : Manager) (victims : List HotItem) :
    Demoted policy s (s.demoteVictims policy platform victims).2 victims := by
  induction victims generalizing s with
  | nil => exact .refl s []
  | cons x victims ih =>
    unfold demoteVictims
    split
    next e t ht => exact .cons (congrArg Prod.snd ht).symm (.refl t victims)
    next t ht => exact .cons (congrArg Prod.snd ht).symm (ih t)

/-- After a loop that ends without error every victim is stored. Victims of one
key are one entry, so a later demotion never replaces an earlier copy. -/
theorem demoteVictims_stored {victims : List HotItem} {hot : HotStore}
    (hres : ∀ x ∈ victims, hot.get? x.1 = some x.2)
    (h : (s.demoteVictims policy platform victims).1 = .ok ()) :
    ∀ x ∈ victims, Stored policy (s.demoteVictims policy platform victims).2 x.1 x.2 := by
  induction victims generalizing s with
  | nil => simp
  | cons y victims ih =>
    unfold demoteVictims at h ⊢
    split at h
    · cases h
    next t ht =>
      have hvict : ∀ x ∈ victims, hot.get? x.1 = some x.2 :=
        fun x hx => hres x (List.mem_cons_of_mem _ hx)
      intro x hx
      rcases List.mem_cons.mp hx with rfl | hx
      · have hst : Stored policy t x.1 x.2 := by
          have := demoteOrDrop_stored policy platform s x.1 x.2 (by rw [ht])
          rwa [ht] at this
        intro c tier hc htar hen
        rcases (demoteVictims_demoted policy platform t victims).copies
          tier x.1 with hk | ⟨e, he, _, hk⟩
        · exact hk.trans (hst c tier hc htar hen)
        · have hsame := (hvict _ he).symm.trans (hres x List.mem_cons_self)
          cases Option.some.inj hsame
          exact hk
      · exact ih hvict h x hx

/-! ### One key under an operation that is not its own -/

/-- What happens to a key that an operation does not write: its Hot entry stays,
goes when it has expired, or is evicted and stored; a copy below Hot stays or is
replaced by the Hot entry. -/
structure Effect (policy : MemoryPolicy) (s t : Manager) (now : ℕ) (k : String) : Prop where
  hot : t.hot.get? k = s.hot.get? k ∨
    t.hot.get? k = ((s.hot.get? k).filter fun e => e.live now) ∨
    t.hot.get? k = none ∧ ∃ e, s.hot.get? k = some e ∧ e.live now = true ∧
      e.evictable = true ∧ Stored policy t k e
  copies : ∀ T, t.copy T k = s.copy T k ∨
    ∃ e, s.hot.get? k = some e ∧ TargetOf policy e T ∧ t.copy T k = some e.toTier

theorem Effect.of_same {now : ℕ} {k : String} (hh : t.hot.get? k = s.hot.get? k)
    (hc : ∀ T, t.copy T k = s.copy T k) : Effect policy s t now k :=
  ⟨.inl hh, fun T => .inl (hc T)⟩

/-- An operation followed by one that changes nothing about the key. -/
theorem Effect.then_same {u : Manager} {now : ℕ} {k : String} (h : Effect policy s t now k)
    (hh : u.hot.get? k = t.hot.get? k) (hc : ∀ T, u.copy T k = t.copy T k) :
    Effect policy s u now k where
  hot := by
    rcases h.hot with h' | h' | ⟨h', e, he, hl, hev, hst⟩
    · exact .inl (hh.trans h')
    · exact .inr (.inl (hh.trans h'))
    · exact .inr (.inr ⟨hh.trans h', e, he, hl, hev, fun c T hcl ht hen =>
        (hc T).trans (hst c T hcl ht hen)⟩)
  copies := fun T => by
    rcases h.copies T with h' | ⟨e, he, ht, h'⟩
    · exact .inl ((hc T).trans h')
    · exact .inr ⟨e, he, ht, (hc T).trans h'⟩

theorem Effect.of_start {u : Manager} {now : ℕ} {k : String} (h : Effect policy t u now k)
    (hh : t.hot.get? k = s.hot.get? k) (hc : ∀ T, t.copy T k = s.copy T k) :
    Effect policy s u now k where
  hot := hh ▸ h.hot
  copies := fun T => by
    rcases h.copies T with h' | ⟨e, he, ht, h'⟩
    · exact .inl (h'.trans (hc T))
    · exact .inr ⟨e, hh ▸ he, ht, h'⟩

/-- The admission of `key` seen from another key, and from `key` itself. -/
structure Admitted (policy : MemoryPolicy) (s t : Manager) (key : String) (value : Value)
    (c : ClassPolicy) (now : ℕ) (ok : Prop) : Prop where
  deferred : t.deferred = s.deferred
  effect : ∀ k, k ≠ key → Effect policy s t now k
  copies : ∀ T, t.copy T key = s.copy T key
  committed : ok → t.hot.get? key = some (HotStore.newEntry value c now)
  refused : ¬ ok → t.hot = s.hot

/-- Victims that are demoted and then leave Hot with the commit. -/
theorem admitted_of_commit {key : String} {value : Value} {c : ClassPolicy} {now : ℕ}
    {prepared : PreparedUpsert} (hp : s.hot.prepareUpsert platform.order key value c now =
      .ok prepared) (hok : (s.demoteVictims policy platform prepared.victims).1 = .ok ())
    {u : Manager} (hhot : u.hot = (s.demoteVictims policy platform prepared.victims).2.hot)
    (htiers : u.tiers = (s.demoteVictims policy platform prepared.victims).2.tiers)
    (hdef : u.deferred = (s.demoteVictims policy platform prepared.victims).2.deferred) :
    Admitted policy s { u with hot := u.hot.commitUpsert prepared } key value c now True := by
  obtain ⟨hkey, hentry, hnow, hvict⟩ := HotStore.prepareUpsert_spec hp
  have hd := demoteVictims_demoted policy platform s prepared.victims
  have hst := demoteVictims_stored (fun x hx => (hvict x hx).resident) hok
  have hcopy : ∀ T k, u.copy T k =
      (s.demoteVictims policy platform prepared.victims).2.copy T k := by
    intro T k
    rw [copy, copy, htiers]
  have hget : ∀ k, (u.hot.commitUpsert prepared).get? k = if k = key then
      some (HotStore.newEntry value c now) else if k ∈ prepared.victims.map Prod.fst then none
      else (s.hot.get? k).filter fun e => e.live now := by
    intro k
    rw [HotStore.get?_commitUpsert, hkey, hentry, hnow, hhot, hd.hot]
  refine ⟨hdef.trans hd.deferred, fun k hk => ⟨?_, fun T => ?_⟩, fun T => ?_, fun _ => ?_,
    fun h => absurd trivial h⟩
  · have hgk := hget k
    rw [if_neg hk] at hgk
    by_cases hv : k ∈ prepared.victims.map Prod.fst
    · obtain ⟨x, hx, rfl⟩ := List.mem_map.mp hv
      rw [if_pos hv] at hgk
      obtain ⟨hr, _, hl, he⟩ := hvict x hx
      refine .inr (.inr ⟨hgk, x.2, hr, hl, he, fun c' T hc ht hen => ?_⟩)
      exact (hcopy T x.1).trans (hst x hx c' T hc ht hen)
    · rw [if_neg hv] at hgk
      exact .inr (.inl hgk)
  · rcases hd.copies T k with h | ⟨e, he, ht, h⟩
    · exact .inl ((hcopy T k).trans h)
    · exact .inr ⟨e, (hvict _ he).resident, ht, (hcopy T k).trans h⟩
  · rcases hd.copies T key with h | ⟨e, he, _, _⟩
    · exact (hcopy T key).trans h
    · exact absurd rfl (hvict _ he).other
  · exact (hget key).trans (if_pos rfl)

/-- An admission that ends before the commit. -/
theorem admitted_of_abort {key : String} (value : Value) (c : ClassPolicy) {now : ℕ}
    {victims : List HotItem} (hvict : ∀ x ∈ victims, s.hot.Victim key now x)
    (hd : Demoted policy s t victims) : Admitted policy s t key value c now False := by
  refine ⟨hd.deferred, fun k _ => ⟨.inl (by rw [hd.hot]), fun T => ?_⟩, fun T => ?_,
    fun h => h.elim, fun _ => hd.hot⟩
  · rcases hd.copies T k with h | ⟨e, he, ht, h⟩
    · exact .inl h
    · exact .inr ⟨e, (hvict _ he).resident, ht, h⟩
  · rcases hd.copies T key with h | ⟨e, he, _, _⟩
    · exact h
    · exact absurd rfl (hvict _ he).other

theorem hotUpsert_admitted (policy : MemoryPolicy) (platform : Platform) (s : Manager) (key : String) (value : Value) (c : ClassPolicy)
    (now : ℕ) :
    Admitted policy s (s.hotUpsert policy platform key value c now).2 key value c now
      ((s.hotUpsert policy platform key value c now).1 = .ok ()) ∧
    (s.hotUpsert policy platform key value c now).2.sink = s.sink := by
  unfold hotUpsert
  split
  next e hp =>
    have h : Admitted policy s s key value c now False :=
      admitted_of_abort value c (fun _ hx => absurd hx List.not_mem_nil) (.refl s [])
    exact ⟨⟨h.deferred, h.effect, h.copies, (fun h => by cases h), fun _ => rfl⟩, rfl⟩
  next prepared hp =>
    have hvict := (HotStore.prepareUpsert_spec hp).2.2.2
    have hd := demoteVictims_demoted policy platform s prepared.victims
    split
    next e t ht =>
      rw [ht] at hd
      have h := admitted_of_abort value c hvict hd
      exact ⟨⟨h.deferred, h.effect, h.copies, (fun h => by cases h), fun _ => hd.hot⟩, hd.sink⟩
    next t ht =>
      have h := admitted_of_commit hp (by rw [ht]) (u := t) (by rw [ht]) (by rw [ht]) (by rw [ht])
      rw [ht] at hd
      exact ⟨⟨h.deferred, h.effect, h.copies, fun _ => h.committed trivial,
        fun hn => absurd rfl hn⟩, hd.sink⟩

/-! ### The deferred queue and the sink -/

/-- Without a sink nothing waits for it. -/
def Sinked (s : Manager) : Prop := s.sink = none → s.deferred.items.entries = []

theorem persistBatch_frame (platform : Platform) (s : Manager) (accepted : List PersistRecord) (now written : ℕ)
    (records : List PersistRecord) :
    (s.persistBatch platform accepted now written records).2.hot = s.hot ∧
    (s.persistBatch platform accepted now written records).2.tiers = s.tiers ∧
    (s.persistBatch platform accepted now written records).2.sink.isSome := by
  induction records generalizing accepted written with
  | nil => exact ⟨rfl, rfl, rfl⟩
  | cons r rs ih =>
    unfold persistBatch
    split
    · exact ⟨rfl, rfl, rfl⟩
    · exact ih _ _

theorem persistBatch_reliable (order : IterOrder) (s : Manager) (accepted : List PersistRecord)
    (now written : ℕ) (records : List PersistRecord) :
    ∃ n, (s.persistBatch (.reliable order) accepted now written records).1 = .ok n := by
  induction records generalizing accepted written with
  | nil => exact ⟨written, rfl⟩
  | cons r rs ih =>
    unfold persistBatch
    exact ih _ _

/-- A flush touches neither Hot nor the tiers. -/
theorem flush_frame (platform : Platform) (s : Manager) (now : ℕ) (force : Bool) :
    (s.flushDeferredAt platform now force).2.hot = s.hot ∧
    (s.flushDeferredAt platform now force).2.tiers = s.tiers := by
  unfold flushDeferredAt
  simp only
  split_ifs
  · exact ⟨rfl, rfl⟩
  · split
    · exact ⟨rfl, rfl⟩
    next accepted _ =>
      have h := persistBatch_frame platform
        { s with deferred := (s.deferred.takeReady now force).2 } accepted now 0
        (s.deferred.takeReady now force).1
      exact ⟨h.1, h.2.1⟩

theorem flush_copy (s : Manager) (now : ℕ) (force : Bool) (T : Tier) (k : String) :
    (s.flushDeferredAt platform now force).2.copy T k = s.copy T k := by
  rw [copy, copy, (flush_frame _ s now force).2]

theorem takeReady_entries {q : DeferredQueue} (h : q.items.entries = []) (now : ℕ)
    (force : Bool) : (q.takeReady now force).1 = [] ∧
      (q.takeReady now force).2.items.entries = [] := by
  simp [DeferredQueue.takeReady, OrderedDict.retain, h]

theorem flush_sinked (platform : Platform) {s : Manager} (h : Sinked s) (now : ℕ) (force : Bool) :
    Sinked (s.flushDeferredAt platform now force).2 ∧
    ((s.flushDeferredAt platform now force).2.sink.isSome ↔ s.sink.isSome) := by
  cases hs : s.sink with
  | none =>
    obtain ⟨h1, h2⟩ := takeReady_entries (h hs) now force
    have hf : (s.flushDeferredAt platform now force).2 =
        { s with deferred := (s.deferred.takeReady now force).2 } := by
      simp [flushDeferredAt, h1]
    rw [hf]
    exact ⟨fun _ => h2, by simp [hs]⟩
  | some accepted =>
    have hsome : (s.flushDeferredAt platform now force).2.sink.isSome := by
      unfold flushDeferredAt
      simp only [hs]
      split_ifs
      · rfl
      · exact (persistBatch_frame _ _ _ _ _ _).2.2
    refine ⟨fun hn => ?_, by simp [hsome]⟩
    rw [hn] at hsome
    cases hsome

/-- No call fails and nothing waits without a sink: the flush succeeds. -/
theorem flush_reliable (order : IterOrder) {s : Manager} (h : Sinked s) (now : ℕ)
    (force : Bool) : ∃ n, (s.flushDeferredAt (.reliable order) now force).1 = .ok n := by
  unfold flushDeferredAt
  simp only
  split_ifs with hb
  · exact ⟨0, rfl⟩
  · split
    next hs =>
      have h1 := (takeReady_entries (h hs) now force).1
      rw [h1] at hb
      exact absurd rfl hb
    next => exact persistBatch_reliable _ _ _ _ _ _

/-! ### Each operation -/

theorem persistNow_error {r : PersistRecord} {e : MemoryError}
    (h : s.persistNow platform r = (.error e, t)) : t = s := by
  unfold persistNow at h
  split at h
  · cases h; rfl
  · split at h <;> cases h; rfl

theorem persistNow_ok {r : PersistRecord} (h : s.persistNow platform r = (.ok (), t)) :
    ∃ accepted, s.sink = some accepted ∧ t = { s with sink := some (accepted ++ [r]) } := by
  unfold persistNow at h
  split at h
  · cases h
  next accepted ha =>
    split at h <;> cases h
    exact ⟨accepted, ha, rfl⟩

/-- Immediate and persistent classes persist between the demotions and the commit. -/
theorem enterHot_now (policy : MemoryPolicy) (platform : Platform) (s : Manager) (key : String)
    (value : Value) {c : ClassPolicy} (now : ℕ)
    (hnow : c.policy = .immediate ∨ c.policy = .persistent) :
    s.enterHot policy platform key value c now =
      match s.hot.prepareUpsert platform.order key value c now with
      | .error e => (.error e, s)
      | .ok prepared =>
        match s.demoteVictims policy platform prepared.victims with
        | (.error e, t) => (.error e, t)
        | (.ok _, t) =>
          match t.persistNow platform ⟨key, c.name, value, c.policy, c.priority⟩ with
          | (.error e, u) => (.error e, u)
          | (.ok _, u) => (.ok (), { u with hot := u.hot.commitUpsert prepared }) := by
  unfold enterHot
  cases hpol : c.policy with
  | immediate | persistent => rfl
  | deferred | volatile | cache =>
    rw [hpol] at hnow
    exact absurd hnow (by decide)

theorem enterHot_later (policy : MemoryPolicy) (platform : Platform) (s : Manager) (key : String)
    (value : Value) {c : ClassPolicy} (now : ℕ)
    (hlater : ¬(c.policy = .immediate ∨ c.policy = .persistent)) :
    s.enterHot policy platform key value c now = s.hotUpsert policy platform key value c now := by
  unfold enterHot
  cases hpol : c.policy with
  | deferred | volatile | cache => rfl
  | immediate => exact absurd (.inl hpol) hlater
  | persistent => exact absurd (.inr hpol) hlater

theorem enterHot_admitted (policy : MemoryPolicy) (platform : Platform) (s : Manager) (key : String)
    (value : Value) (c : ClassPolicy) (now : ℕ) :
    Admitted policy s (s.enterHot policy platform key value c now).2 key value c now
      ((s.enterHot policy platform key value c now).1 = .ok ()) ∧
    ((s.enterHot policy platform key value c now).2.sink.isSome ↔ s.sink.isSome) := by
  by_cases hnow : c.policy = .immediate ∨ c.policy = .persistent
  · rw [enterHot_now policy platform s key value now hnow]
    split
    next e hp =>
      have h : Admitted policy s s key value c now False :=
        admitted_of_abort value c (fun _ hx => absurd hx List.not_mem_nil) (.refl s [])
      exact ⟨⟨h.deferred, h.effect, h.copies, (fun hok => by cases hok), fun _ => rfl⟩, .rfl⟩
    next prepared hp =>
      have hvict := (HotStore.prepareUpsert_spec hp).2.2.2
      have hd := demoteVictims_demoted policy platform s prepared.victims
      split
      next e t ht =>
        rw [ht] at hd
        have h := admitted_of_abort value c hvict hd
        exact ⟨⟨h.deferred, h.effect, h.copies, (fun hok => by cases hok), fun _ => hd.hot⟩,
          by rw [hd.sink]⟩
      next t ht =>
        rw [ht] at hd
        split
        next e u hu =>
          cases persistNow_error hu
          have h := admitted_of_abort value c hvict hd
          exact ⟨⟨h.deferred, h.effect, h.copies, (fun hok => by cases hok), fun _ => hd.hot⟩,
            by rw [hd.sink]⟩
        next u hu =>
          obtain ⟨a, ha, rfl⟩ := persistNow_ok hu
          have h := admitted_of_commit hp (by rw [ht])
            (u := { t with sink := some (a ++ [⟨key, c.name, value, c.policy, c.priority⟩]) })
            (by rw [ht]) (by rw [ht]) (by rw [ht])
          refine ⟨⟨h.deferred, h.effect, h.copies, fun _ => h.committed trivial,
            fun hn => absurd rfl hn⟩, ?_⟩
          rw [← hd.sink, ha]
          exact .rfl
  · have h := hotUpsert_admitted policy platform s key value c now
    rw [enterHot_later policy platform s key value now hnow]
    exact ⟨h.1, by rw [h.2]⟩

/-- After the commit Hot is not written any more, nor any copy of another key. -/
theorem publish_frame (policy : MemoryPolicy) (platform : Platform) (s : Manager) (key : String) (value : Value) (c : ClassPolicy) (now : ℕ) :
    (s.publish policy platform key value c now).2.hot = s.hot ∧
    ∀ T k, k ≠ key → (s.publish policy platform key value c now).2.copy T k = s.copy T k := by
  have hsettle : (s.settle policy platform key value c now).2.hot = s.hot ∧
      ∀ T k, k ≠ key → (s.settle policy platform key value c now).2.copy T k = s.copy T k := by
    unfold settle
    split
    · exact ⟨rfl, fun _ _ _ => rfl⟩
    · exact ⟨rfl, fun _ _ _ => rfl⟩
    · simp only
      split <;> rename_i hf <;> have hf := congrArg Prod.snd hf <;> subst hf
      all_goals exact ⟨(flush_frame _ _ now _).1, fun T k _ => flush_copy _ now _ T k⟩
    · split <;> rename_i hf <;> have hf := congrArg Prod.snd hf <;> subst hf
      all_goals exact ⟨(flush_frame _ _ now _).1, fun T k _ => flush_copy _ now _ T k⟩
    · have hm : ∀ r : Outcome Unit, (if c.mirrorsWarm then
          s.tierPut policy platform .warm key ⟨c.name, value⟩ else (.ok (), s)) = r →
          r.2.hot = s.hot ∧ ∀ T k, k ≠ key → r.2.copy T k = s.copy T k := by
        intro r hr
        subst hr
        split_ifs
        · have hw := tierPut_wrote policy platform s .warm key
            ⟨c.name, value⟩
          exact ⟨hw.hot, hw.other⟩
        · exact ⟨rfl, fun _ _ _ => rfl⟩
      split
      next e t ht => exact hm _ ht
      next t ht =>
        obtain ⟨hhot, hcopy⟩ := hm _ ht
        split <;> rename_i hf <;> have hf := congrArg Prod.snd hf <;> subst hf
        all_goals exact ⟨(flush_frame _ t now _).1.trans hhot, fun T k hk =>
          (flush_copy t now _ T k).trans (hcopy T k hk)⟩
  unfold publish
  split
  next e t ht =>
    rw [ht] at hsettle
    exact hsettle
  next t ht =>
    rw [ht] at hsettle
    unfold archive
    split_ifs
    · have hw := tierPut_wrote policy platform t .frozen key
        ⟨c.name, value⟩
      exact ⟨hw.hot.trans hsettle.1, fun T k hk => (hw.other T k hk).trans (hsettle.2 T k hk)⟩
    · exact hsettle

/-- The copy a successful write leaves in each tier. -/
def published (policy : MemoryPolicy) (s : Manager) (key : String) (value : Value)
    (c : ClassPolicy) : Tier → Option TierEntry
  | .warm => if c.mirrorsWarm && policy.backends.warm then some ⟨c.name, value⟩
    else s.copy .warm key
  | .cold => s.copy .cold key
  | .frozen => if c.archivesFrozen && policy.backends.frozen then some ⟨c.name, value⟩
    else s.copy .frozen key

/-- No call fails and a sink is there when needed: what follows the commit
succeeds. -/
theorem publish_reliable (policy : MemoryPolicy) (order : IterOrder) {s : Manager} (h : Sinked s) (key : String)
    (value : Value) {c : ClassPolicy} (hc : c.policy = .deferred → s.sink.isSome) (now : ℕ) :
    (s.publish policy (.reliable order) key value c now).1 = .ok () ∧
    (∀ T, (s.publish policy (.reliable order) key value c now).2.copy T key =
      published policy s key value c T) ∧
    Sinked (s.publish policy (.reliable order) key value c now).2 ∧
    ((s.publish policy (.reliable order) key value c now).2.sink.isSome ↔ s.sink.isSome) := by
  have hsettle : ∃ t, s.settle policy (.reliable order) key value c now = (.ok (), t) ∧
      (∀ T, t.copy T key = if T = .warm ∧ c.mirrorsWarm = true ∧ policy.backends.warm = true then
        some ⟨c.name, value⟩ else s.copy T key) ∧ Sinked t ∧ (t.sink.isSome ↔ s.sink.isSome) := by
    unfold settle
    split
    next hp =>
      exact ⟨s, rfl, fun T => by rw [if_neg]; simp [ClassPolicy.mirrorsWarm, hp], h, .rfl⟩
    next hp =>
      exact ⟨s, rfl, fun T => by rw [if_neg]; simp [ClassPolicy.mirrorsWarm, hp], h, .rfl⟩
    next hp =>
      simp only
      have hs : Sinked { s with deferred := (s.deferred.enqueue
          ⟨key, c.name, value, c.policy, c.priority⟩ (c.flush.getD 0) now).2 } := fun hn => by
        have hsome := hc hp
        rw [show s.sink = none from hn] at hsome
        cases hsome
      obtain ⟨n, hn⟩ := flush_reliable order hs now (s.deferred.enqueue
          ⟨key, c.name, value, c.policy, c.priority⟩ (c.flush.getD 0) now).1
      have hsk := flush_sinked (.reliable order) hs now (s.deferred.enqueue
          ⟨key, c.name, value, c.policy, c.priority⟩ (c.flush.getD 0) now).1
      split
      next hf =>
        rw [hf] at hn
        cases hn
      next t hf =>
        have ht := congrArg Prod.snd hf
        subst ht
        refine ⟨_, rfl, fun T => ?_, hsk⟩
        rw [if_neg (by simp [ClassPolicy.mirrorsWarm, hp])]
        exact flush_copy _ _ _ _ _
    next hp =>
      obtain ⟨n, hn⟩ := flush_reliable order h now false
      have hsk := flush_sinked (.reliable order) h now false
      split
      next hf =>
        rw [hf] at hn
        cases hn
      next t hf =>
        have ht := congrArg Prod.snd hf
        subst ht
        refine ⟨_, rfl, fun T => ?_, hsk⟩
        rw [if_neg (by simp [ClassPolicy.mirrorsWarm, hp])]
        exact flush_copy _ _ _ _ _
    next hp =>
      have hmirror : ∀ r : Outcome Unit, (if c.mirrorsWarm then
          s.tierPut policy (.reliable order) .warm key ⟨c.name, value⟩ else (.ok (), s)) = r →
          r.1 = .ok () ∧ (∀ T, r.2.copy T key = if T = .warm ∧ c.mirrorsWarm = true ∧
            policy.backends.warm = true then some ⟨c.name, value⟩ else s.copy T key) ∧
          r.2.sink = s.sink ∧ r.2.deferred = s.deferred := by
        intro r hr
        subst hr
        split_ifs with hm
        · have hok := tierPut_reliable policy order s .warm key ⟨c.name, value⟩ (classClash_none (by simp) _ _ _)
          have hw := tierPut_wrote policy (.reliable order) s .warm key
            ⟨c.name, value⟩
          refine ⟨hok, fun T => ?_, hw.sink, hw.deferred⟩
          rw [tierPut_ok hok]
          refine if_congr ?_ rfl rfl
          simp only [Backends.enabled, hm, true_and, and_true]
          exact and_comm
        · exact ⟨rfl, fun T => by rw [if_neg]; simp [hm], rfl, rfl⟩
      split
      next e t ht =>
        have := (hmirror _ ht).1
        cases this
      next t ht =>
        obtain ⟨-, hcopy, hsink, hdef⟩ := hmirror _ ht
        have hs : Sinked t := fun hn => by
          rw [hdef]
          exact h (hsink ▸ hn)
        obtain ⟨n, hn⟩ := flush_reliable order hs now false
        have hsk := flush_sinked (.reliable order) hs now false
        split
        next hf =>
          rw [hf] at hn
          cases hn
        next u hf =>
          have hu := congrArg Prod.snd hf
          subst hu
          refine ⟨_, rfl, fun T => (flush_copy _ _ _ _ _).trans (hcopy T), hsk.1, ?_⟩
          rw [hsk.2, hsink]
  obtain ⟨t, ht, hcopy, hsk, hsome⟩ := hsettle
  simp only [publish, ht, archive]
  by_cases hf : c.archivesFrozen = true
  · have hok := tierPut_reliable policy order t .frozen key ⟨c.name, value⟩ (classClash_none (by simp) _ _ _)
    have hw := tierPut_wrote policy (.reliable order) t .frozen key
      ⟨c.name, value⟩
    rw [if_pos hf]
    refine ⟨hok, fun T => ?_, fun hn => ?_, by rw [hw.sink]; exact hsome⟩
    · rw [tierPut_ok hok, hcopy]
      cases T <;> simp [published, hf, Backends.enabled]
    · rw [hw.deferred]
      exact hsk (hw.sink ▸ hn)
  · rw [if_neg hf]
    refine ⟨rfl, fun T => ?_, hsk, hsome⟩
    rw [hcopy]
    cases T <;> simp [published, hf]

theorem upsertAt_effect (s : Manager) (key : String) (value : Value) (className : String)
    (now : ℕ) {k : String} (hk : k ≠ key) :
    Effect policy s (s.upsertAt policy platform key value className now).2 now k := by
  unfold upsertAt
  split
  · exact .of_same rfl fun _ => rfl
  next c hc =>
    have h := (enterHot_admitted policy platform s key value c now).1.effect
      k hk
    split
    next e t ht =>
      rw [ht] at h
      exact h
    next t ht =>
      rw [ht] at h
      have hp := publish_frame policy platform t key value c now
      exact h.then_same (by rw [hp.1]) fun T => hp.2 T k hk

theorem promote_spec (policy : MemoryPolicy) (platform : Platform) (s : Manager) (key : String) (entry : TierEntry) (now : ℕ) :
    (∀ k, k ≠ key → Effect policy s (s.promote policy platform key entry now) now k) ∧
    (∀ T, (s.promote policy platform key entry now).copy T key = s.copy T key) ∧
    (s.promote policy platform key entry now).sink = s.sink ∧
    (s.promote policy platform key entry now).deferred = s.deferred ∧
    ((s.promote policy platform key entry now).hot.get? key = s.hot.get? key ∨
      ∃ c, policy.class? entry.className = .ok c ∧
        (s.promote policy platform key entry now).hot.get? key =
          some (HotStore.newEntry entry.value c now)) := by
  unfold promote
  split
  · exact ⟨fun _ _ => .of_same rfl fun _ => rfl, fun _ => rfl, rfl, rfl, .inl rfl⟩
  next c hc =>
    obtain ⟨h, hsink⟩ := hotUpsert_admitted policy platform s key
      entry.value c now
    refine ⟨h.effect, h.copies, hsink, h.deferred, ?_⟩
    by_cases hok : (s.hotUpsert policy platform key entry.value c now).1 = .ok ()
    · exact .inr ⟨c, hc, h.committed hok⟩
    · exact .inl (by rw [h.refused hok])

/-- The manager between the Hot lookup of `get_at` and the promotion. -/
def touched (platform : Platform) (s : Manager) (key : String) (now : ℕ) : Manager :=
  { (s.flushDeferredAt platform now false).2 with
    hot := ((s.flushDeferredAt platform now false).2.hot.get key now).2 }

theorem touched_copy (platform : Platform) (s : Manager) (key : String) (now : ℕ) (T : Tier) (k : String) :
    (touched platform s key now).copy T k = s.copy T k := flush_copy s now false T k

theorem touched_get? (platform : Platform) (s : Manager) (key : String) (now : ℕ) (k : String) :
    (touched platform s key now).hot.get? k =
      ((s.hot.get? k).filter fun e => e.live now).map fun e =>
        if k = key then HotStore.touch e now else e := by
  rw [touched, (HotStore.get_spec _ key now).2 k, (flush_frame _ s now false).1]

theorem touched_effect (s : Manager) (key : String) (now : ℕ) {k : String} (hk : k ≠ key) :
    Effect policy s (touched platform s key now) now k where
  hot := by
    have h := touched_get? platform s key now k
    simp only [hk, if_false] at h
    exact .inr (.inl (h.trans Option.map_id'))
  copies := fun T => .inl (touched_copy _ s key now T k)

/-- `get_at` when no call fails: a live Hot entry, else the first copy below it,
which is promoted. -/
theorem getAt_reliable (policy : MemoryPolicy) (order : IterOrder) (s : Manager) (key : String) (now : ℕ) :
    let u := touched (.reliable order) s key now
    (∃ e, (s.hot.get? key).filter (fun e => e.live now) = some e ∧
      s.getAt policy (.reliable order) key now = (some e.value, u)) ∨
    (s.hot.get? key).filter (fun e => e.live now) = none ∧
      (s.firstCopy key = none ∧ s.getAt policy (.reliable order) key now = (none, u) ∨
        ∃ entry, s.firstCopy key = some entry ∧ s.getAt policy (.reliable order) key now =
          (some entry.value, u.promote policy (.reliable order) key entry now)) := by
  intro u
  have hval := (HotStore.get_spec (s.flushDeferredAt (.reliable order) now false).2.hot
    key now).1
  rw [(flush_frame _ s now false).1] at hval
  cases hlive : (s.hot.get? key).filter (fun e => e.live now) with
  | some e =>
    rw [hlive] at hval
    refine .inl ⟨e, rfl, ?_⟩
    unfold getAt
    simp only
    split
    next value hot hg =>
      rw [← (flush_frame _ s now false).1, hg] at hval
      cases hval
      simp only [u, touched, hg]
    next hot hg =>
      rw [← (flush_frame _ s now false).1, hg] at hval
      cases hval
  | none =>
    rw [hlive] at hval
    refine .inr ⟨rfl, ?_⟩
    have hu : ∀ T, u.copy T key = s.copy T key := fun T => touched_copy _ s key now T key
    have hget : ∀ T, u.tierGet (.reliable order) T key = s.copy T key := hu
    have hmiss : ∀ T, s.copy T key = none →
        u.promoteFrom policy (.reliable order) T key now = (none, u) := by
      intro T hcopy
      simp only [promoteFrom, hget, hcopy]
    have hfound : ∀ T entry, s.copy T key = some entry →
        u.promoteFrom policy (.reliable order) T key now =
          (some entry.value, u.promote policy (.reliable order) key entry now) := by
      intro T entry hcopy
      simp only [promoteFrom, hget, hcopy]
    unfold getAt
    simp only
    split
    next value hot hg =>
      rw [← (flush_frame _ s now false).1, hg] at hval
      cases hval
    next hot hg =>
      have hst : ({ (s.flushDeferredAt (.reliable order) now false).2 with hot := hot } :
          Manager) = u := by
        simp only [u, touched, hg]
      rw [hst]
      cases hw : s.copy .warm key with
      | some entry =>
        rw [hfound .warm entry hw]
        exact .inr ⟨entry, by simp [firstCopy, hw], rfl⟩
      | none =>
        simp only [hmiss .warm hw]
        cases hc : s.copy .cold key with
        | some entry =>
          rw [hfound .cold entry hc]
          exact .inr ⟨entry, by simp [firstCopy, hw, hc], rfl⟩
        | none =>
          simp only [hmiss .cold hc]
          cases hf : s.copy .frozen key with
          | some entry => exact .inr ⟨entry, by simp [firstCopy, hw, hc, hf], hfound .frozen entry hf⟩
          | none => exact .inl ⟨by simp [firstCopy, hw, hc, hf], hmiss .frozen hf⟩

/-- The value `get_at` returns when no call fails. -/
theorem getAt_value (order : IterOrder) (s : Manager) (key : String) (now : ℕ) :
    (s.getAt policy (.reliable order) key now).1 = s.lookup key now := by
  rcases getAt_reliable policy order s key now with ⟨e, he, hr⟩ | ⟨hn, h⟩
  · rw [hr, lookup, he]
    rfl
  · rw [lookup, hn]
    rcases h with ⟨hf, hr⟩ | ⟨entry, hf, hr⟩
    · rw [hr, lower, hf]
      rfl
    · rw [hr, lower, hf]
      rfl

/-- What a read leaves under its own key. -/
theorem getAt_own (policy : MemoryPolicy) (order : IterOrder) (s : Manager) (key : String) (now : ℕ) :
    (∀ T, (s.getAt policy (.reliable order) key now).2.copy T key = s.copy T key) ∧
    ((∃ e, s.hot.get? key = some e ∧ e.live now = true ∧
        (s.getAt policy (.reliable order) key now).2.hot.get? key =
          some (HotStore.touch e now)) ∨
      (s.hot.get? key).filter (fun e => e.live now) = none ∧
        ((s.getAt policy (.reliable order) key now).2.hot.get? key = none ∨
          ∃ entry c, s.firstCopy key = some entry ∧ policy.class? entry.className = .ok c ∧
            (s.getAt policy (.reliable order) key now).2.hot.get? key =
              some (HotStore.newEntry entry.value c now))) := by
  have hcopy := touched_copy (.reliable order) s key now
  have hget := touched_get? (.reliable order) s key now key
  rcases getAt_reliable policy order s key now with
    ⟨e, he, hr⟩ | ⟨hn, ⟨_, hr⟩ | ⟨entry, hfirst, hr⟩⟩ <;> rw [hr]
  · rw [he] at hget
    obtain ⟨hres, hlive⟩ := Option.filter_eq_some_iff.mp he
    exact ⟨fun T => hcopy T key, .inl ⟨e, hres, hlive, by rw [hget, Option.map_some, if_pos rfl]⟩⟩
  · rw [hn] at hget
    exact ⟨fun T => hcopy T key, .inr ⟨hn, .inl hget⟩⟩
  · rw [hn] at hget
    obtain ⟨_, hown, _, _, hhot⟩ := promote_spec policy (.reliable order)
      (touched (.reliable order) s key now) key entry now
    refine ⟨fun T => (hown T).trans (hcopy T key), .inr ⟨hn, ?_⟩⟩
    rcases hhot with hsame | ⟨c, hc, hnew⟩
    · exact .inl (hsame.trans hget)
    · exact .inr ⟨entry, c, hfirst, hc, hnew⟩

/-- `remove` takes the key from every tier whose `remove` does not fail. -/
theorem remove_reliable (order : IterOrder) (s : Manager) (key k : String) :
    ((s.remove (.reliable order) key).2.hot.get? k = if k = key then none else s.hot.get? k) ∧
    (∀ T, (s.remove (.reliable order) key).2.copy T k =
      if k = key then none else s.copy T k) ∧
    (s.remove (.reliable order) key).2.sink = s.sink ∧
    (s.remove (.reliable order) key).2.deferred = s.deferred := by
  refine ⟨HotStore.get?_remove key k, fun T => ?_, rfl, rfl⟩
  cases T <;>
    simp only [remove, tierRemove, Platform.reliable, copy, Function.update_self, ne_eq,
      reduceCtorEq, not_false_eq_true, Function.update_of_ne, Dict.get?_erase]

/-! ### Maintenance -/

/-- A reclaimed entry is demoted, or goes back to Hot when that fails. -/
theorem notifyPressure_effect (s : Manager) (now : ℕ) (k : String) :
    Effect policy s (s.notifyPressure policy platform now).2 now k := by
  have hflush := flush_frame platform s now true
  unfold notifyPressure
  split
  next e t ht =>
    rw [ht] at hflush
    exact .of_same (by rw [hflush.1]) fun T => by rw [copy, copy, hflush.2]
  next n t ht =>
    rw [ht] at hflush
    have hstart : ∀ u, Effect policy t u now k → Effect policy s u now k := fun u hu =>
      hu.of_start (by rw [hflush.1]) fun T => by rw [copy, copy, hflush.2]
    refine hstart _ ?_
    split
    next hot hr =>
      refine ⟨.inr (.inl ?_), fun T => .inl rfl⟩
      have hn := HotStore.reclaimOne_none t.hot platform.order now
        (by rw [hr])
      rw [hr] at hn
      rw [show hot = t.hot.purgeExpired now from hn]
      exact HotStore.get?_purgeExpired t.hot now k
    next key entry hot hr =>
      have hsome := HotStore.reclaimOne_some t.hot platform.order now
        (x := (key, entry)) (by rw [hr])
      rw [hr] at hsome
      obtain ⟨hres, hlive, hev, hget⟩ := hsome
      have hw := demoteOrDrop_wrote policy platform
        { t with hot := hot } key entry
      have htar := demoteOrDrop_target policy platform
        { t with hot := hot } key entry
      have hcopies : ∀ T, ({ t with hot := hot }.demoteOrDrop policy platform key entry).2.copy T k
          = t.copy T k ∨ ∃ e, t.hot.get? k = some e ∧ TargetOf policy e T ∧
            ({ t with hot := hot }.demoteOrDrop policy platform key entry).2.copy T k =
              some e.toTier := by
        intro T
        by_cases hk : k = key
        · subst hk
          rcases htar T with h | ⟨h1, h2⟩
          · exact .inl h
          · exact .inr ⟨entry, hres, h1, h2⟩
        · exact .inl (hw.other T k hk)
      split
      next e u hu =>
        rw [hu] at hw hcopies
        refine ⟨.inr (.inl ?_), hcopies⟩
        rw [HotStore.get?_restore]
        by_cases hk : k = key
        · subst hk
          rw [if_pos rfl, hres, Option.filter_some, hlive]
          rfl
        · rw [if_neg hk, hw.hot]
          exact (hget k).trans (if_neg hk)
      next u hu =>
        have hst := demoteOrDrop_stored policy platform
          { t with hot := hot } key entry (by rw [hu])
        rw [hu] at hw hcopies hst
        refine ⟨?_, hcopies⟩
        rw [hw.hot]
        by_cases hk : k = key
        · subst hk
          exact .inr (.inr ⟨(hget k).trans (if_pos rfl), entry, hres, hlive, hev, hst⟩)
        · exact .inr (.inl ((hget k).trans (if_neg hk)))

theorem foldl_restore (victims : List HotItem) (hot : HotStore) (k : String) :
    (∃ e, (k, e) ∈ victims ∧
      (victims.foldl (fun hot y => hot.restore y.1 y.2) hot).get? k = some e) ∨
    k ∉ victims.map Prod.fst ∧
      (victims.foldl (fun hot y => hot.restore y.1 y.2) hot).get? k = hot.get? k := by
  induction victims generalizing hot with
  | nil => exact .inr ⟨by simp, rfl⟩
  | cons x victims ih =>
    rw [List.foldl_cons]
    rcases ih (hot.restore x.1 x.2) with ⟨e, he, h⟩ | ⟨hn, h⟩
    · exact .inl ⟨e, List.mem_cons_of_mem _ he, h⟩
    · rw [HotStore.get?_restore] at h
      by_cases hk : k = x.1
      · subst hk
        exact .inl ⟨x.2, List.mem_cons_self, by rw [h, if_pos rfl]⟩
      · refine .inr ⟨?_, by rw [h, if_neg hk]⟩
        rw [List.map_cons, List.mem_cons, not_or]
        exact ⟨hk, hn⟩

/-- After `apply_demotions` every victim is stored or back in Hot. -/
theorem applyDemotions_spec (policy : MemoryPolicy) (platform : Platform) {hot : HotStore} (victims : List HotItem) (s : Manager)
    (hres : ∀ x ∈ victims, hot.get? x.1 = some x.2) (k : String) :
    ((s.applyDemotions policy platform victims).2.hot.get? k = s.hot.get? k ∧
        (∀ e, (k, e) ∈ victims → Stored policy (s.applyDemotions policy platform victims).2 k e) ∨
      ∃ e, (k, e) ∈ victims ∧
        (s.applyDemotions policy platform victims).2.hot.get? k = some e) ∧
    ∀ T, (s.applyDemotions policy platform victims).2.copy T k = s.copy T k ∨
      ∃ e, (k, e) ∈ victims ∧ TargetOf policy e T ∧
        (s.applyDemotions policy platform victims).2.copy T k = some e.toTier := by
  induction victims generalizing s with
  | nil => exact ⟨.inl ⟨rfl, fun _ h => by cases h⟩, fun _ => .inl rfl⟩
  | cons x victims ih =>
    have hw := demoteOrDrop_wrote policy platform s x.1 x.2
    have htar := demoteOrDrop_target policy platform s x.1 x.2
    have hcopy : ∀ T, (s.demoteOrDrop policy platform x.1 x.2).2.copy T k = s.copy T k ∨
        ∃ e, (k, e) ∈ x :: victims ∧ TargetOf policy e T ∧
          (s.demoteOrDrop policy platform x.1 x.2).2.copy T k = some e.toTier := by
      intro T
      by_cases hk : k = x.1
      · subst hk
        rcases htar T with h | ⟨h1, h2⟩
        · exact .inl h
        · exact .inr ⟨x.2, List.mem_cons_self, h1, h2⟩
      · exact .inl (hw.other T k hk)
    unfold applyDemotions
    split
    next e t ht =>
      rw [ht] at hw hcopy
      refine ⟨?_, hcopy⟩
      rcases foldl_restore (x :: victims) t.hot k with h | ⟨hn, h⟩
      · exact .inr h
      · exact .inl ⟨by rw [h, hw.hot], fun e he => absurd (List.mem_map_of_mem he) hn⟩
    next t ht =>
      have hst := demoteOrDrop_stored policy platform s x.1 x.2 (by rw [ht])
      rw [ht] at hw hcopy hst
      have hrest : ∀ y ∈ victims, hot.get? y.1 = some y.2 :=
        fun y hy => hres y (List.mem_cons_of_mem _ hy)
      obtain ⟨hhot, hcop⟩ := ih t hrest
      refine ⟨?_, fun T => ?_⟩
      · rcases hhot with ⟨h, hall⟩ | ⟨e, he, h⟩
        · refine .inl ⟨by rw [h, hw.hot], fun e he => ?_⟩
          rcases List.mem_cons.mp he with heq | he
          · -- a later demotion of the same key writes the same entry
            obtain rfl : x = (k, e) := heq.symm
            intro c T hc ht' hen
            rcases hcop T with h' | ⟨e', he', _, h'⟩
            · exact h'.trans (hst c T hc ht' hen)
            · have hsame := (hrest _ he').symm.trans (hres (k, e) List.mem_cons_self)
              cases Option.some.inj hsame
              exact h'
          · exact hall e he
        · exact .inr ⟨e, List.mem_cons_of_mem _ he, h⟩
      · rcases hcop T with h | ⟨e, he, h1, h2⟩
        · rcases hcopy T with h' | ⟨e, he, h1, h2⟩
          · exact .inl (h.trans h')
          · exact .inr ⟨e, he, h1, h.trans h2⟩
        · exact .inr ⟨e, List.mem_cons_of_mem _ he, h1, h2⟩

theorem demoteIdleAt_effect (s : Manager) (now limit : ℕ) (k : String) :
    Effect policy s (s.demoteIdleAt policy platform now limit).2 now k := by
  obtain ⟨hvict, hget⟩ := HotStore.reclaimIdle_spec s.hot platform.order
    now limit
  obtain ⟨hhot, hcop⟩ := applyDemotions_spec policy platform
    (s.hot.reclaimIdle platform.order now limit).1
    { s with hot := (s.hot.reclaimIdle platform.order now limit).2 }
    (fun x hx => (hvict x hx).1) k
  have heff : Effect policy s ({ s with hot := (s.hot.reclaimIdle platform.order now limit).2
      }.applyDemotions policy platform (s.hot.reclaimIdle platform.order now limit).1).2 now k := by
    refine ⟨?_, fun T => ?_⟩
    · rcases hhot with ⟨h, hall⟩ | ⟨e, he, h⟩
      · by_cases hk : k ∈ (s.hot.reclaimIdle platform.order now limit).1.map Prod.fst
        · obtain ⟨x, hx, rfl⟩ := List.mem_map.mp hk
          obtain ⟨hres, hlive, hev⟩ := hvict x hx
          exact .inr (.inr ⟨h.trans ((hget x.1).trans (if_pos hk)), x.2, hres, hlive, hev,
            hall x.2 hx⟩)
        · exact .inr (.inl (h.trans ((hget k).trans (if_neg hk))))
      · obtain ⟨hres, hlive, _⟩ := hvict _ he
        refine .inl (h.trans hres.symm)
    · rcases hcop T with h | ⟨e, he, h1, h2⟩
      · exact .inl h
      · exact .inr ⟨e, (hvict _ he).1, h1, h2⟩
  unfold demoteIdleAt
  simp only
  split <;> rename_i ht <;> rw [ht] at heff <;> exact heff

theorem poll_effect (s : Manager) (now : ℕ) (k : String) :
    Effect policy s (s.poll policy platform now).2 now k := by
  have hflush := flush_frame platform s now false
  unfold poll
  split
  next e t ht =>
    rw [ht] at hflush
    exact .of_same (by rw [hflush.1]) fun T => by rw [copy, copy, hflush.2]
  next n t ht =>
    rw [ht] at hflush
    exact (demoteIdleAt_effect t now 64 k).of_start (by rw [hflush.1]) fun T => by
      rw [copy, copy, hflush.2]

end Manager

/-! ### Operations as data -/

/-- An operation of the manager, with the value of its clock. -/
inductive MemoryOp where
  | upsert (key : String) (value : Value) (className : String) (now : ℕ)
  | get (key : String) (now : ℕ)
  | remove (key : String)
  | notifyPressure (now : ℕ)
  | poll (now : ℕ)

namespace MemoryOp

/-- The manager an operation leaves, whatever it returns. -/
def run (policy : MemoryPolicy) (platform : Platform) (m : Manager) : MemoryOp → Manager
  | .upsert key value className now => (m.upsertAt policy platform key value className now).2
  | .get key now => (m.getAt policy platform key now).2
  | .remove key => (m.remove platform key).2
  | .notifyPressure now => (m.notifyPressure policy platform now).2
  | .poll now => (m.poll policy platform now).2

/-- The key an operation is about. -/
def key? : MemoryOp → Option String
  | .upsert key .. | .get key _ | .remove key => some key
  | _ => none

/-- `remove` does not read the clock. -/
def now? : MemoryOp → Option ℕ
  | .upsert _ _ _ now | .get _ now | .notifyPressure now | .poll now => some now
  | .remove _ => none

end MemoryOp

namespace Manager

variable {policy : MemoryPolicy}

/-- A read of another key: its expiry and its promotion, one after the other. -/
theorem getAt_effect (order : IterOrder) (s : Manager) (key : String) (now : ℕ) {k : String}
    (hk : k ≠ key) : ∃ u, Effect policy s u now k ∧
      Effect policy u (s.getAt policy (.reliable order) key now).2 now k := by
  refine ⟨touched (.reliable order) s key now, touched_effect s key now hk, ?_⟩
  rcases getAt_reliable policy order s key now with
    ⟨e, _, hr⟩ | ⟨_, ⟨_, hr⟩ | ⟨entry, _, hr⟩⟩ <;> rw [hr]
  · exact .of_same rfl fun _ => rfl
  · exact .of_same rfl fun _ => rfl
  · exact (promote_spec _ _ _ key entry now).1 k hk

/-- Every operation treats a key that it is not about by at most two effects. -/
theorem run_effect (policy : MemoryPolicy) (order : IterOrder) (m : Manager) (op : MemoryOp) (now : ℕ)
    (hnow : ∀ n, op.now? = some n → n = now) {k : String} (hk : op.key? ≠ some k) :
    ∃ u, Effect policy m u now k ∧ Effect policy u (op.run policy (.reliable order) m) now k := by
  cases op with
  | upsert key value className n =>
    obtain rfl := hnow n rfl
    exact ⟨m, .of_same rfl fun _ => rfl,
      upsertAt_effect m key value className n fun he => hk (congrArg some he.symm)⟩
  | get key n =>
    obtain rfl := hnow n rfl
    exact getAt_effect order m key n fun he => hk (congrArg some he.symm)
  | remove key =>
    obtain ⟨hhot, hcopy, _, _⟩ := remove_reliable order m key k
    have hne : k ≠ key := fun he => hk (congrArg some he.symm)
    exact ⟨m, .of_same rfl fun _ => rfl, .of_same (hhot.trans (if_neg hne)) fun T =>
      (hcopy T).trans (if_neg hne)⟩
  | notifyPressure n =>
    obtain rfl := hnow n rfl
    exact ⟨m, .of_same rfl fun _ => rfl, notifyPressure_effect m n k⟩
  | poll n =>
    obtain rfl := hnow n rfl
    exact ⟨m, .of_same rfl fun _ => rfl, poll_effect m n k⟩

end Manager

end Jaiba.Memory
