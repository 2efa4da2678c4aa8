import Mathlib.Data.List.Sort
import Jaiba.Memory.Policy

/-!
# Hot tier (`jaiba-memory/src/hot.rs`)

Admission by count and by bytes, eviction by priority and use, expiry. The map
iterates in an order of its own: every operation that looks for a victim takes
that order as an argument.
-/

namespace Jaiba.Memory
open Jaiba.Lib

/-- Object resident in Hot. -/
structure HotEntry where
  className : String
  value : Value
  priority : Priority
  expiresAt : Option ℕ
  lastAccess : ℕ
  accessCount : ℕ
  demoteAfter : Option ℕ
  sizeBytes : ℕ

namespace HotEntry

def expired (e : HotEntry) (now : ℕ) : Bool :=
  match e.expiresAt with
  | some deadline => deadline ≤ now
  | none => false

def live (e : HotEntry) (now : ℕ) : Bool := !e.expired now

/-- Entries below `critical` may be evicted. -/
def evictable (e : HotEntry) : Bool := e.priority.rank < Priority.rank .critical

/-- Key and value bytes; `saturating_add` does not saturate on resident sizes. -/
def bytes (key : String) (e : HotEntry) : ℕ := key.utf8ByteSize + e.sizeBytes

/-- The order of eviction: priority, then use, then size (larger first), then age. -/
def victimOrder (l r : HotEntry) : Ordering :=
  (compare l.priority.rank r.priority.rank).then
    ((compare l.accessCount r.accessCount).then
      ((compare r.sizeBytes l.sizeBytes).then (compare l.lastAccess r.lastAccess)))

end HotEntry

abbrev HotItem := String × HotEntry

/-- An order in which a hash map may be iterated. -/
structure IterOrder where
  iter : List HotItem → List HotItem
  perm : ∀ l, (iter l).Perm l

namespace IterOrder

def asStored : IterOrder := ⟨id, fun _ => .refl _⟩

theorem mem_iter (o : IterOrder) {l : List HotItem} {x : HotItem} : x ∈ o.iter l ↔ x ∈ l :=
  (o.perm l).mem_iff

end IterOrder

/-- `Iterator::min_by` with `victimOrder`: the first of the least. -/
def minVictim : List HotItem → Option HotItem
  | [] => none
  | x :: xs => some (xs.foldl (fun best y =>
      if best.2.victimOrder y.2 = .gt then y else best) x)

theorem foldl_min_mem (xs : List HotItem) (x : HotItem) :
    xs.foldl (fun best y => if best.2.victimOrder y.2 = .gt then y else best) x ∈ x :: xs := by
  induction xs generalizing x with
  | nil => exact List.mem_singleton_self x
  | cons y ys ih =>
    rw [List.foldl_cons]
    have h := ih (if x.2.victimOrder y.2 = .gt then y else x)
    rcases List.mem_cons.mp h with h | h
    · rw [h]
      split <;> simp
    · exact List.mem_cons_of_mem _ (List.mem_cons_of_mem _ h)

theorem minVictim_mem {l : List HotItem} {x : HotItem} (h : minVictim l = some x) : x ∈ l := by
  cases l with
  | nil => cases h
  | cons y ys =>
    cases Option.some.inj h
    exact foldl_min_mem ys y

structure HotStore where
  entries : Dict String HotEntry
  maxEntries : ℕ
  maxBytes : ℕ

/-- Admission prepared without changing Hot; commit only after external writes
succeed. -/
structure PreparedUpsert where
  key : String
  entry : HotEntry
  now : ℕ
  victims : List HotItem

namespace HotStore

variable (hot : HotStore) (order : IterOrder)

def get? (key : String) : Option HotEntry := Dict.get? hot.entries key

/-- The loop of `prepare_upsert`. Every round takes the least candidate, so the
number of candidates bounds the rounds; with none left the admission fails. -/
def selectVictims (needed incomingBytes : ℕ) :
    ℕ → List HotItem → ℕ → List HotItem → Except MemoryError (List HotItem)
  | rounds, candidates, residentBytes, victims =>
    if victims.length < needed ∨ hot.maxBytes < residentBytes + incomingBytes then
      match rounds, minVictim candidates with
      | rounds + 1, some victim =>
        selectVictims needed incomingBytes rounds (candidates.filter fun x => x.1 ≠ victim.1)
          (residentBytes - HotEntry.bytes victim.1 victim.2) (victims ++ [victim])
      | _, _ =>
        .error (if victims.length < needed then .criticalCapacity hot.maxEntries
          else .hotByteCapacity (residentBytes + incomingBytes) hot.maxBytes)
    else .ok victims

/-- Entries that may make room for `key`. -/
def candidates (key : String) (now : ℕ) : List HotItem :=
  (order.iter hot.entries.rows).filter fun x => x.1 ≠ key && x.2.live now && x.2.evictable

/-- How many entries must leave so that `key` fits `max_entries`. -/
def needed (key : String) (now : ℕ) : ℕ :=
  if (hot.get? key).any fun e => e.live now then 0
  else hot.entries.rows.countP (fun x => x.2.live now) + 1 - hot.maxEntries

/-- Bytes of the live entries other than `key`. -/
def residentBytes (key : String) (now : ℕ) : ℕ :=
  ((hot.entries.rows.filter fun x => x.1 ≠ key && x.2.live now).map fun x =>
    HotEntry.bytes x.1 x.2).sum

def newEntry (value : Value) (c : ClassPolicy) (now : ℕ) : HotEntry where
  className := c.name
  value := value
  priority := c.priority
  expiresAt := c.ttl.map fun ttl => now + ttl
  lastAccess := now
  accessCount := 1
  demoteAfter := c.demoteAfter
  sizeBytes := jsonLen value

def prepareUpsert (key : String) (value : Value) (c : ClassPolicy) (now : ℕ) :
    Except MemoryError PreparedUpsert :=
  let incomingBytes := key.utf8ByteSize + jsonLen value
  if hot.maxBytes < incomingBytes then .error (.hotByteCapacity incomingBytes hot.maxBytes)
  else
    match hot.selectVictims (hot.needed key now) incomingBytes
        (hot.candidates order key now).length (hot.candidates order key now)
        (hot.residentBytes key now) [] with
    | .error e => .error e
    | .ok victims => .ok ⟨key, newEntry value c now, now, victims⟩

def purgeExpired (now : ℕ) : HotStore :=
  { hot with entries := Dict.retain hot.entries fun _ e => e.live now }

def commitUpsert (p : PreparedUpsert) : HotStore :=
  let purged := hot.purgeExpired p.now
  { purged with
    entries := Dict.insert (Dict.eraseAll purged.entries (p.victims.map Prod.fst)) p.key p.entry }

def touch (e : HotEntry) (now : ℕ) : HotEntry :=
  { e with lastAccess := now, accessCount := e.accessCount + 1 }

/-- `get`: marks the access; an expired entry is removed and is a miss. -/
def get (key : String) (now : ℕ) : Option Value × HotStore :=
  let purged := hot.purgeExpired now
  match purged.get? key with
  | none => (none, purged)
  | some e => (some e.value, { purged with entries := Dict.insert purged.entries key (touch e now) })

def remove (key : String) : Bool × HotStore :=
  ((hot.get? key).isSome, { hot with entries := Dict.erase hot.entries key })

def restore (key : String) (e : HotEntry) : HotStore :=
  { hot with entries := Dict.insert hot.entries key e }

/-- `reclaim_one`: free one entry that is not critical. -/
def reclaimOne (now : ℕ) : Option HotItem × HotStore :=
  let purged := hot.purgeExpired now
  match minVictim ((order.iter purged.entries.rows).filter fun x => x.2.evictable) with
  | none => (none, purged)
  | some victim =>
    (some victim, { purged with entries := Dict.erase purged.entries victim.1 })

/-- Idle long enough to be demoted by maintenance; `checked_duration_since` has
no value for an access after `now`. -/
def idle (e : HotEntry) (now : ℕ) : Bool :=
  e.evictable &&
    match e.demoteAfter with
    | some idle => e.lastAccess ≤ now && idle ≤ now - e.lastAccess
    | none => false

/-- `reclaim_idle`: extract up to `limit` idle entries, in the order of eviction. -/
def reclaimIdle (now limit : ℕ) : List HotItem × HotStore :=
  let purged := hot.purgeExpired now
  let idleItems := (order.iter purged.entries.rows).filter fun x => idle x.2 now
  let victims := (idleItems.insertionSort fun l r => l.2.victimOrder r.2 ≠ .gt).take limit
  (victims, { purged with entries := Dict.eraseAll purged.entries (victims.map Prod.fst) })

/-! ### What the operations do to one entry -/

variable {hot order}

theorem get?_purgeExpired (hot : HotStore) (now : ℕ) (key : String) :
    (hot.purgeExpired now).get? key = (hot.get? key).filter fun e => e.live now :=
  Dict.get?_retain _ _ _

/-- What makes an entry a victim of the admission of `key`. -/
structure Victim (hot : HotStore) (key : String) (now : ℕ) (x : HotItem) : Prop where
  resident : hot.get? x.1 = some x.2
  other : x.1 ≠ key
  live : x.2.live now = true
  evictable : x.2.evictable = true

theorem selectVictims_mem {P : HotItem → Prop} {needed incomingBytes : ℕ} (rounds : ℕ)
    (candidates : List HotItem) (resident : ℕ) (victims out : List HotItem)
    (hc : ∀ x ∈ candidates, P x) (hv : ∀ x ∈ victims, P x)
    (h : hot.selectVictims needed incomingBytes rounds candidates resident victims = .ok out) :
    ∀ x ∈ out, P x := by
  induction rounds generalizing candidates resident victims with
  | zero =>
    unfold selectVictims at h
    split at h
    · cases h
    · cases h
      exact hv
  | succ rounds ih =>
    unfold selectVictims at h
    split at h
    · split at h
      next victim hm =>
        cases ‹_ + 1 = _ + 1›
        refine ih _ _ _ (fun x hx => hc x (List.mem_filter.mp hx).1) (fun x hx => ?_) h
        rcases List.mem_append.mp hx with hx | hx
        · exact hv x hx
        · rw [List.mem_singleton.mp hx]
          exact hc _ (minVictim_mem hm)
      · cases h
    · cases h
      exact hv

theorem prepareUpsert_spec {key : String} {value : Value} {c : ClassPolicy} {now : ℕ}
    {p : PreparedUpsert} (h : hot.prepareUpsert order key value c now = .ok p) :
    p.key = key ∧ p.entry = newEntry value c now ∧ p.now = now ∧
      ∀ x ∈ p.victims, hot.Victim key now x := by
  simp only [prepareUpsert] at h
  split_ifs at h
  split at h
  · cases h
  next victims hv =>
    cases h
    refine ⟨rfl, rfl, rfl, selectVictims_mem _ _ _ _ _ (fun x hx => ?_) (by simp) hv⟩
    obtain ⟨hx, hp⟩ := List.mem_filter.mp hx
    simp only [Bool.and_eq_true, decide_eq_true_eq] at hp
    exact ⟨Dict.mem_rows_iff.mp (order.mem_iter.mp hx), hp.1.1, hp.1.2, hp.2⟩

theorem get?_commitUpsert (p : PreparedUpsert) (key : String) :
    (hot.commitUpsert p).get? key =
      if key = p.key then some p.entry
      else if key ∈ p.victims.map Prod.fst then none
      else (hot.get? key).filter fun e => e.live p.now := by
  rw [commitUpsert, get?, Dict.get?_insert, Dict.get?_eraseAll]
  exact congrArg _ (congrArg _ (get?_purgeExpired hot p.now key))

/-- The value `get` returns, and the entry it leaves under each key. -/
theorem get_spec (hot : HotStore) (key : String) (now : ℕ) :
    (hot.get key now).1 = ((hot.get? key).filter fun e => e.live now).map HotEntry.value ∧
    ∀ k, (hot.get key now).2.get? k =
      ((hot.get? k).filter fun e => e.live now).map fun e =>
        if k = key then touch e now else e := by
  unfold get
  have hp := get?_purgeExpired hot now
  cases hg : (hot.purgeExpired now).get? key with
  | none =>
    simp only [hg]
    refine ⟨by rw [← hp, hg]; rfl, fun k => ?_⟩
    rw [hp k]
    by_cases hk : k = key
    · subst hk
      rw [← hp, hg]
      rfl
    · simp [hk]
  | some e =>
    simp only [hg]
    refine ⟨by rw [← hp, hg]; rfl, fun k => ?_⟩
    rw [get?, Dict.get?_insert]
    by_cases hk : k = key
    · subst hk
      rw [if_pos rfl, ← hp, hg]
      simp
    · rw [if_neg hk]
      exact (hp k).trans (by simp [hk])

theorem get?_remove (key k : String) :
    (hot.remove key).2.get? k = if k = key then none else hot.get? k := Dict.get?_erase _ _ _

theorem get?_restore (key : String) (e : HotEntry) (k : String) :
    (hot.restore key e).get? k = if k = key then some e else hot.get? k := Dict.get?_insert _ _ _ _

theorem reclaimOne_none (hot : HotStore) (order : IterOrder) (now : ℕ)
    (h : (hot.reclaimOne order now).1 = none) :
    (hot.reclaimOne order now).2 = hot.purgeExpired now := by
  unfold reclaimOne at h ⊢
  simp only at h ⊢
  split at h
  next => rfl
  next => cases h

/-- `reclaim_one` takes out a live entry that is not critical. -/
theorem reclaimOne_some (hot : HotStore) (order : IterOrder) (now : ℕ) {x : HotItem}
    (h : (hot.reclaimOne order now).1 = some x) :
    hot.get? x.1 = some x.2 ∧ x.2.live now = true ∧ x.2.evictable = true ∧
      ∀ k, (hot.reclaimOne order now).2.get? k =
        if k = x.1 then none else (hot.get? k).filter fun e => e.live now := by
  unfold reclaimOne at h ⊢
  simp only at h ⊢
  split at h
  next => cases h
  next victim hm =>
    cases h
    obtain ⟨hx, he⟩ := List.mem_filter.mp (minVictim_mem hm)
    have hres := Dict.mem_rows_iff.mp (order.mem_iter.mp hx)
    rw [purgeExpired, Dict.get?_retain] at hres
    obtain ⟨hget, hlive⟩ := Option.filter_eq_some_iff.mp hres
    refine ⟨hget, hlive, he, fun k => ?_⟩
    rw [get?, Dict.get?_erase]
    exact congrArg _ (get?_purgeExpired hot now k)

/-- `reclaim_idle` takes out live entries that are not critical. -/
theorem reclaimIdle_spec (hot : HotStore) (order : IterOrder) (now limit : ℕ) :
    (∀ x ∈ (hot.reclaimIdle order now limit).1,
      hot.get? x.1 = some x.2 ∧ x.2.live now = true ∧ x.2.evictable = true) ∧
    ∀ k, (hot.reclaimIdle order now limit).2.get? k =
      if k ∈ (hot.reclaimIdle order now limit).1.map Prod.fst then none
      else (hot.get? k).filter fun e => e.live now := by
  refine ⟨fun x hx => ?_, fun k => ?_⟩
  · have hx := (List.perm_insertionSort _ _).mem_iff.mp (List.mem_of_mem_take hx)
    obtain ⟨hx, hi⟩ := List.mem_filter.mp hx
    have hres := Dict.mem_rows_iff.mp (order.mem_iter.mp hx)
    rw [purgeExpired, Dict.get?_retain] at hres
    obtain ⟨hget, hlive⟩ := Option.filter_eq_some_iff.mp hres
    simp only [idle, Bool.and_eq_true] at hi
    exact ⟨hget, hlive, hi.1⟩
  · simp only [reclaimIdle, get?, Dict.get?_eraseAll]
    exact congrArg _ (get?_purgeExpired hot now k)

end HotStore

end Jaiba.Memory
