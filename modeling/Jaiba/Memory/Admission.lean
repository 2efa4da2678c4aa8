import Jaiba.Lib.Weight
import Jaiba.Memory.Removal

/-!
# Admission

Runs of the Hot store as the manager calls it: it stays within its two limits,
and what leaves it leaves in the order of eviction. An entry taken out for a
demotion that fails comes back.
-/

namespace Jaiba.Memory
open Jaiba.Lib

/-! ### The order of eviction -/

namespace HotEntry

variable {l m r : HotEntry}

/-- `l` does not come after `r` in the order of eviction. -/
def Precedes (l r : HotEntry) : Prop := l.victimOrder r ≠ .gt

theorem precedes_iff : l.Precedes r ↔ l.priority.rank < r.priority.rank ∨
    l.priority.rank = r.priority.rank ∧ (l.accessCount < r.accessCount ∨
      l.accessCount = r.accessCount ∧ (r.sizeBytes < l.sizeBytes ∨
        l.sizeBytes = r.sizeBytes ∧ l.lastAccess ≤ r.lastAccess)) := by
  have hthen : ∀ (a b : ℕ) (o : Ordering),
      (compare a b).then o ≠ .gt ↔ a < b ∨ a = b ∧ o ≠ .gt := by
    intro a b o
    rcases Nat.lt_trichotomy a b with h | h | h
    · rw [Nat.compare_eq_lt.mpr h]
      simp [Ordering.then, h]
    · rw [Nat.compare_eq_eq.mpr h]
      simp [Ordering.then, h]
    · rw [Nat.compare_eq_gt.mpr h]
      simp [Ordering.then, h.ne', Nat.lt_asymm h]
  have hlast : compare l.lastAccess r.lastAccess ≠ .gt ↔ l.lastAccess ≤ r.lastAccess := by
    rw [Ne, Nat.compare_eq_gt, Nat.not_lt]
  rw [Precedes, victimOrder, hthen, hthen, hthen, hlast, eq_comm (a := r.sizeBytes)]

theorem Precedes.refl (e : HotEntry) : e.Precedes e := by
  rw [precedes_iff]
  omega

theorem Precedes.total (l r : HotEntry) : l.Precedes r ∨ r.Precedes l := by
  rw [precedes_iff, precedes_iff]
  omega

theorem Precedes.trans (h : l.Precedes m) (h' : m.Precedes r) : l.Precedes r := by
  rw [precedes_iff] at h h' ⊢
  omega

end HotEntry

theorem foldl_min_precedes (xs : List HotItem) (x : HotItem) :
    (xs.foldl (fun best y => if best.2.victimOrder y.2 = .gt then y else best) x).2.Precedes x.2 ∧
      ∀ y ∈ xs, (xs.foldl (fun best y =>
        if best.2.victimOrder y.2 = .gt then y else best) x).2.Precedes y.2 := by
  induction xs generalizing x with
  | nil => exact ⟨.refl _, fun y hy => absurd hy List.not_mem_nil⟩
  | cons z zs ih =>
    rw [List.foldl_cons]
    have hstart : (if x.2.victimOrder z.2 = .gt then z else x).2.Precedes x.2 ∧
        (if x.2.victimOrder z.2 = .gt then z else x).2.Precedes z.2 := by
      split
      next hgt =>
        rcases HotEntry.Precedes.total x.2 z.2 with h | h
        · exact absurd hgt h
        · exact ⟨h, .refl _⟩
      next hle => exact ⟨.refl _, hle⟩
    obtain ⟨hx, hall⟩ := ih (if x.2.victimOrder z.2 = .gt then z else x)
    refine ⟨hx.trans hstart.1, fun y hy => ?_⟩
    rcases List.mem_cons.mp hy with rfl | hy
    · exact hx.trans hstart.2
    · exact hall y hy

theorem minVictim_precedes {l : List HotItem} {x y : HotItem} (h : minVictim l = some x)
    (hy : y ∈ l) : x.2.Precedes y.2 := by
  cases l with
  | nil => cases h
  | cons z zs =>
    cases Option.some.inj h
    obtain ⟨hz, hall⟩ := foldl_min_precedes zs z
    rcases List.mem_cons.mp hy with rfl | hy
    · exact hz
    · exact hall y hy

/-- Victims out of a pool: none twice, and each the least of those that are left. -/
structure InVictimOrder (pool : HotItem → Prop) (victims : List HotItem) : Prop where
  nodup : (victims.map Prod.fst).Nodup
  mem : ∀ x ∈ victims, pool x
  least : ∀ before x after, victims = before ++ x :: after →
    ∀ y, pool y → y ∉ before → x.2.Precedes y.2

namespace InVictimOrder

variable {pool pool' : HotItem → Prop} {victims : List HotItem}

theorem nil (pool : HotItem → Prop) : InVictimOrder pool [] where
  nodup := List.nodup_nil
  mem := fun x hx => absurd hx List.not_mem_nil
  least := fun before x after h => by
    have hlen := congrArg List.length h
    rw [List.length_append, List.length_cons, List.length_nil] at hlen
    omega

theorem cons {x : HotItem} (hx : pool x) (hleast : ∀ y, pool y → x.2.Precedes y.2)
    (hkeys : ∀ y, pool y → y.1 = x.1 → y = x)
    (h : InVictimOrder (fun y => pool y ∧ y.1 ≠ x.1) victims) :
    InVictimOrder pool (x :: victims) where
  nodup := by
    rw [List.map_cons, List.nodup_cons]
    refine ⟨fun hmem => ?_, h.nodup⟩
    obtain ⟨y, hy, hk⟩ := List.mem_map.mp hmem
    exact (h.mem y hy).2 hk
  mem := fun y hy => by
    rcases List.mem_cons.mp hy with rfl | hy
    · exact hx
    · exact (h.mem y hy).1
  least := fun before y after hsplit z hz hnot => by
    cases before with
    | nil =>
      rw [List.nil_append, List.cons.injEq] at hsplit
      exact hsplit.1 ▸ hleast z hz
    | cons b before =>
      rw [List.cons_append, List.cons.injEq] at hsplit
      rw [List.mem_cons, not_or, ← hsplit.1] at hnot
      refine h.least before y after hsplit.2 z ⟨hz, fun hk => hnot.1 (hkeys z hz hk)⟩ hnot.2

theorem congr (h : InVictimOrder pool victims) (hp : ∀ x, pool x ↔ pool' x) :
    InVictimOrder pool' victims where
  nodup := h.nodup
  mem := fun x hx => (hp x).mp (h.mem x hx)
  least := fun before x after hsplit y hy => h.least before x after hsplit y ((hp y).mpr hy)

/-- The front of a sorted list. -/
theorem of_sorted {l : List HotItem} (hnodup : (l.map Prod.fst).Nodup)
    (hsorted : l.Pairwise fun x y => x.2.Precedes y.2) (limit : ℕ) :
    InVictimOrder (· ∈ l) (l.take limit) where
  nodup := hnodup.sublist ((List.take_sublist limit l).map _)
  mem := fun x hx => List.mem_of_mem_take hx
  least := fun before x after hsplit y hy hnot => by
    have hl : l = before ++ x :: (after ++ l.drop limit) := by
      conv_lhs => rw [← List.take_append_drop limit l, hsplit]
      rw [List.append_assoc, List.cons_append]
    rw [hl] at hy hsorted
    rcases List.mem_append.mp hy with hy | hy
    · exact absurd hy hnot
    · rcases List.mem_cons.mp hy with rfl | hy
      · exact .refl _
      · exact (List.pairwise_cons.mp (List.pairwise_append.mp hsorted).2.1).1 y hy

end InVictimOrder

namespace HotStore

variable {hot : HotStore} {order : IterOrder} {key : String} {now : ℕ}

/-- An entry that a store may give up: it has not expired and is not critical. -/
structure Evictable (hot : HotStore) (now : ℕ) (x : HotItem) : Prop where
  resident : hot.get? x.1 = some x.2
  live : x.2.live now = true
  evictable : x.2.evictable = true

theorem selectVictims_spec {needed incomingBytes : ℕ} (rounds : ℕ) (candidates : List HotItem)
    (resident : ℕ) (victims out : List HotItem) (hnodup : (candidates.map Prod.fst).Nodup)
    (h : hot.selectVictims needed incomingBytes rounds candidates resident victims = .ok out) :
    ∃ more, out = victims ++ more ∧ InVictimOrder (· ∈ candidates) more ∧ needed ≤ out.length ∧
      resident - (more.map fun x => HotEntry.bytes x.1 x.2).sum + incomingBytes ≤ hot.maxBytes := by
  have hdone : ∀ victims resident, ¬ (List.length victims < needed ∨
      hot.maxBytes < resident + incomingBytes) → ∃ more, victims = victims ++ more ∧
      InVictimOrder (· ∈ candidates) more ∧ needed ≤ victims.length ∧
      resident - (more.map fun x => HotEntry.bytes x.1 x.2).sum + incomingBytes ≤ hot.maxBytes := by
    intro victims resident hstop
    rw [not_or, Nat.not_lt, Nat.not_lt] at hstop
    exact ⟨[], (List.append_nil _).symm, .nil _, hstop.1, hstop.2⟩
  induction rounds generalizing candidates resident victims with
  | zero =>
    unfold selectVictims at h
    split at h
    · cases h
    next hstop =>
      cases h
      exact hdone _ _ hstop
  | succ rounds ih =>
    unfold selectVictims at h
    split at h
    · split at h
      next rounds' victim heq hm =>
        cases heq
        have hrest : ((candidates.filter fun x => x.1 ≠ victim.1).map Prod.fst).Nodup :=
          hnodup.sublist (List.filter_sublist.map _)
        obtain ⟨more, rfl, hmore, hneeded, hbytes⟩ := ih _ _ _ hrest h fun victims resident hstop => by
          rw [not_or, Nat.not_lt, Nat.not_lt] at hstop
          exact ⟨[], (List.append_nil _).symm, .nil _, hstop.1, hstop.2⟩
        refine ⟨victim :: more, by rw [List.append_assoc, List.singleton_append], ?_, hneeded, ?_⟩
        · refine .cons (minVictim_mem hm) (fun y hy => minVictim_precedes hm hy) (fun y hy hk =>
            List.inj_on_of_nodup_map hnodup hy (minVictim_mem hm) hk) (hmore.congr fun y => ?_)
          rw [List.mem_filter, decide_eq_true_eq]
        · rw [List.map_cons, List.sum_cons]
          omega
      · cases h
    next hstop =>
      cases h
      exact hdone _ _ hstop

theorem nodup_iter (order : IterOrder) (hot : HotStore) (p : HotItem → Bool) :
    (((order.iter hot.entries.rows).filter p).map Prod.fst).Nodup := by
  have hnodup : ((order.iter hot.entries.rows).map Prod.fst).Nodup :=
    ((order.perm hot.entries.rows).map Prod.fst).nodup_iff.mpr hot.entries.primaryKey
  exact hnodup.sublist (List.filter_sublist.map _)

theorem mem_candidates {x : HotItem} : x ∈ hot.candidates order key now ↔ hot.Victim key now x := by
  rw [candidates, List.mem_filter, order.mem_iter, Bool.and_eq_true, Bool.and_eq_true,
    decide_eq_true_eq]
  constructor
  · rintro ⟨hx, ⟨hk, hlive⟩, hev⟩
    exact ⟨Dict.mem_rows_iff.mp hx, hk, hlive, hev⟩
  · intro h
    exact ⟨Dict.mem_rows_iff.mpr h.resident, ⟨h.other, h.live⟩, h.evictable⟩

/-- Which entries an admission chooses, and how many. -/
theorem prepareUpsert_victims {value : Value} {c : ClassPolicy} {p : PreparedUpsert}
    (h : hot.prepareUpsert order key value c now = .ok p) :
    InVictimOrder (hot.Victim key now) p.victims ∧ hot.needed key now ≤ p.victims.length ∧
      hot.residentBytes key now - (p.victims.map fun x => HotEntry.bytes x.1 x.2).sum +
        HotEntry.bytes key p.entry ≤ hot.maxBytes := by
  simp only [prepareUpsert] at h
  split_ifs at h
  split at h
  · cases h
  next victims hv =>
    cases h
    obtain ⟨more, rfl, hmore, hneeded, hbytes⟩ :=
      selectVictims_spec _ _ _ [] victims (nodup_iter order hot _) hv
    exact ⟨hmore.congr fun x => mem_candidates, hneeded, hbytes⟩

/-- Live entries other than `key`. -/
def others (hot : HotStore) (key : String) (now : ℕ) : List HotItem :=
  hot.entries.rows.filter fun x => x.1 ≠ key && x.2.live now

/-- What a commit takes out and what it brings in. -/
theorem weight_commitUpsert (f : HotItem → ℕ) {p : PreparedUpsert}
    (h : InVictimOrder (hot.Victim p.key p.now) p.victims) :
    Dict.weight f (hot.commitUpsert p).entries + (p.victims.map f).sum =
      ((hot.others p.key p.now).map f).sum + f (p.key, p.entry) := by
  have hnodup : ((hot.others p.key p.now).map Prod.fst).Nodup :=
    hot.entries.primaryKey.sublist (List.filter_sublist.map _)
  have hmem : ∀ x ∈ p.victims, x ∈ hot.others p.key p.now := by
    intro x hx
    rw [others, List.mem_filter, Bool.and_eq_true, decide_eq_true_eq]
    exact ⟨Dict.mem_rows_iff.mpr (h.mem x hx).resident, (h.mem x hx).other, (h.mem x hx).live⟩
  have hsplit : ((hot.others p.key p.now).map f).sum = (p.victims.map f).sum +
      (((hot.others p.key p.now).filter fun x => x.1 ∉ p.victims.map Prod.fst).map f).sum :=
    Dict.sum_split f hnodup h.nodup hmem
  have hkept : (Dict.erase (Dict.eraseAll (hot.purgeExpired p.now).entries
      (p.victims.map Prod.fst)) p.key).rows =
      (hot.others p.key p.now).filter fun x => x.1 ∉ p.victims.map Prod.fst := by
    have herase : ∀ (d : Dict String HotEntry) (k : String),
        (Dict.erase d k).rows = d.rows.filter fun x => !decide (x.1 = k) := fun _ _ => rfl
    have hpurged : (hot.purgeExpired p.now).entries.rows =
        hot.entries.rows.filter fun x => !!x.2.live p.now := rfl
    rw [herase, Dict.rows_eraseAll, hpurged, others, List.filter_filter, List.filter_filter,
      List.filter_filter]
    refine List.filter_congr fun x _ => ?_
    by_cases hk : x.1 = p.key <;> cases x.2.live p.now <;> simp [hk]
  have hcommit : Dict.weight f (hot.commitUpsert p).entries =
      Dict.weight f (Dict.erase (Dict.eraseAll (hot.purgeExpired p.now).entries
        (p.victims.map Prod.fst)) p.key) + f (p.key, p.entry) := Dict.weight_insert f _ _ _
  rw [hcommit, Dict.weight, hkept, hsplit]
  omega

/-- The byte total that `metrics` reports. -/
def bytes (hot : HotStore) : ℕ := Dict.weight (fun x => HotEntry.bytes x.1 x.2) hot.entries

theorem commitUpsert_bytes {value : Value} {c : ClassPolicy} {p : PreparedUpsert}
    (h : hot.prepareUpsert order key value c now = .ok p) :
    (hot.commitUpsert p).bytes ≤ hot.maxBytes := by
  obtain ⟨hk, -, hn, -⟩ := prepareUpsert_spec h
  obtain ⟨hvictims, -, hbytes⟩ := prepareUpsert_victims h
  rw [← hk, ← hn] at hvictims hbytes
  have hweight : (hot.commitUpsert p).bytes +
      (p.victims.map fun x => HotEntry.bytes x.1 x.2).sum =
        hot.residentBytes p.key p.now + HotEntry.bytes p.key p.entry :=
    weight_commitUpsert (fun x => HotEntry.bytes x.1 x.2) hvictims
  omega

theorem commitUpsert_count {value : Value} {c : ClassPolicy} {p : PreparedUpsert}
    (h : hot.prepareUpsert order key value c now = .ok p)
    (hle : hot.entries.rows.length ≤ hot.maxEntries) :
    (hot.commitUpsert p).entries.rows.length ≤ hot.maxEntries := by
  obtain ⟨hk, -, hn, -⟩ := prepareUpsert_spec h
  obtain ⟨hvictims, hneeded, -⟩ := prepareUpsert_victims h
  rw [← hk, ← hn] at hvictims hneeded
  have hweight := weight_commitUpsert (fun _ => 1) hvictims
  have hone : ∀ l : List HotItem, (l.map fun _ => 1).sum = l.length := fun l => by
    rw [List.map_const', List.sum_replicate, nsmul_eq_mul, Nat.cast_id, Nat.mul_one]
  rw [Dict.weight_one, hone, hone] at hweight
  have hlive : (hot.others p.key p.now).length ≤
      hot.entries.rows.countP fun x => x.2.live p.now := by
    rw [others, ← List.countP_eq_length_filter]
    refine List.countP_mono_left fun x _ hx => ?_
    exact (Bool.and_eq_true _ _ ▸ hx).2
  cases hres : hot.get? p.key with
  | some e =>
    have hlt : (hot.others p.key p.now).length < hot.entries.rows.length :=
      List.length_filter_lt_length_iff_exists.mpr
        ⟨(p.key, e), Dict.mem_rows_iff.mpr hres, by simp⟩
    rw [needed, hres, Option.any_some] at hneeded
    split_ifs at hneeded <;> omega
  | none =>
    rw [needed, hres, Option.any_none, if_neg (by decide)] at hneeded
    omega

/-! ### Entries that are taken out -/

theorem reclaimOne_victim {x : HotItem} (h : (hot.reclaimOne order now).1 = some x) :
    InVictimOrder (hot.Evictable now) [x] := by
  obtain ⟨hget, hlive, hev, -⟩ := reclaimOne_some hot order now h
  have hpool : ∀ y, hot.Evictable now y ↔
      y ∈ (order.iter (hot.purgeExpired now).entries.rows).filter fun x => x.2.evictable := by
    intro y
    rw [List.mem_filter, order.mem_iter, purgeExpired, Dict.mem_rows_iff, Dict.get?_retain,
      Option.filter_eq_some_iff]
    exact ⟨fun hy => ⟨⟨hy.resident, hy.live⟩, hy.evictable⟩, fun hy => ⟨hy.1.1, hy.1.2, hy.2⟩⟩
  refine .cons ⟨hget, hlive, hev⟩ (fun y hy => ?_) (fun y hy hk => ?_) (.nil _)
  · unfold reclaimOne at h
    simp only at h
    split at h
    · cases h
    next victim hm =>
      cases h
      exact minVictim_precedes hm ((hpool y).mp hy)
  · have hsame := hy.resident
    rw [hk, hget] at hsame
    exact Prod.ext hk (Option.some.inj hsame).symm

/-- An entry whose idle time is over. -/
structure Idle (hot : HotStore) (now : ℕ) (x : HotItem) : Prop where
  resident : hot.get? x.1 = some x.2
  live : x.2.live now = true
  idle : HotStore.idle x.2 now = true

theorem reclaimIdle_victims (hot : HotStore) (order : IterOrder) (now limit : ℕ) :
    InVictimOrder (hot.Idle now) (hot.reclaimIdle order now limit).1 := by
  have : Std.Total fun l r : HotItem => l.2.victimOrder r.2 ≠ .gt :=
    ⟨fun l r => HotEntry.Precedes.total l.2 r.2⟩
  have : IsTrans HotItem fun l r => l.2.victimOrder r.2 ≠ .gt :=
    ⟨fun _ _ _ h h' => HotEntry.Precedes.trans h h'⟩
  have hsorted := List.pairwise_insertionSort (fun l r : HotItem => l.2.victimOrder r.2 ≠ .gt)
    ((order.iter (hot.purgeExpired now).entries.rows).filter fun x => HotStore.idle x.2 now)
  have hperm := List.perm_insertionSort (fun l r : HotItem => l.2.victimOrder r.2 ≠ .gt)
    ((order.iter (hot.purgeExpired now).entries.rows).filter fun x => HotStore.idle x.2 now)
  have hnodup := (hperm.map Prod.fst).nodup_iff.mpr (nodup_iter order (hot.purgeExpired now) _)
  refine (InVictimOrder.of_sorted hnodup hsorted limit).congr fun x => ?_
  rw [hperm.mem_iff, List.mem_filter, order.mem_iter, purgeExpired, Dict.mem_rows_iff,
    Dict.get?_retain, Option.filter_eq_some_iff]
  exact ⟨fun hx => ⟨hx.1.1, hx.1.2, hx.2⟩, fun hx => ⟨⟨hx.resident, hx.live⟩, hx.idle⟩⟩

/-- The victims from the first whose demotion failed go back: nothing else has
changed in the purged store. -/
theorem restore_reclaimed {taken : HotStore} {victims done rest : List HotItem}
    (hres : ∀ x ∈ victims, hot.get? x.1 = some x.2) (hnodup : (victims.map Prod.fst).Nodup)
    (htaken : ∀ k, taken.get? k = if k ∈ victims.map Prod.fst then none else hot.get? k)
    (hsplit : victims = done ++ rest) (k : String) :
    (rest.foldl (fun hot y => hot.restore y.1 y.2) taken).get? k =
      if k ∈ done.map Prod.fst then none else hot.get? k := by
  rw [hsplit, List.map_append] at hnodup
  rcases Manager.foldl_restore rest taken k with ⟨e, he, hback⟩ | ⟨hnot, hback⟩
  · have hk : k ∉ done.map Prod.fst := fun hdone =>
      (List.nodup_append.mp hnodup).2.2 k hdone k (List.mem_map_of_mem he) rfl
    rw [hback, if_neg hk]
    exact (hres (k, e) (hsplit ▸ List.mem_append_right done he)).symm
  · rw [hback, htaken, hsplit, List.map_append]
    simp only [List.mem_append, hnot, or_false]

end HotStore

/-! ### Runs of the Hot store -/

/-- The Hot store, and the entries taken out of it whose demotion is not over. -/
structure HotRun where
  hot : HotStore
  reclaimed : List HotItem

/-- The calls of the manager; `demoted` is whether what an admission, or the next
entry taken out, has to do outside Hot succeeds. -/
inductive HotOp where
  | upsert (key : String) (value : Value) (c : ClassPolicy) (now : ℕ) (demoted : Bool)
  | get (key : String) (now : ℕ)
  | remove (key : String)
  | purgeExpired (now : ℕ)
  | reclaimOne (now : ℕ)
  | reclaimIdle (now limit : ℕ)
  | settle (demoted : Bool)

namespace HotRun

def step (s : HotRun) (a : IterOrder × HotOp) : Option HotRun :=
  match s.reclaimed, a.2 with
  | x :: rest, .settle demoted =>
    some ⟨if demoted then s.hot else s.hot.restore x.1 x.2, rest⟩
  | [], .upsert key value c now demoted =>
    match s.hot.prepareUpsert a.1 key value c now with
    | .error _ => some s
    | .ok prepared => some (if demoted then ⟨s.hot.commitUpsert prepared, []⟩ else s)
  | [], .get key now => some ⟨(s.hot.get key now).2, []⟩
  | [], .remove key => some ⟨(s.hot.remove key).2, []⟩
  | [], .purgeExpired now => some ⟨s.hot.purgeExpired now, []⟩
  | [], .reclaimOne now =>
    some ⟨(s.hot.reclaimOne a.1 now).2, (s.hot.reclaimOne a.1 now).1.toList⟩
  | [], .reclaimIdle now limit =>
    some ⟨(s.hot.reclaimIdle a.1 now limit).2, (s.hot.reclaimIdle a.1 now limit).1⟩
  | _, _ => none

def machine : Machine HotRun (IterOrder × HotOp) := ⟨step⟩

def start (maxEntries maxBytes : ℕ) : HotRun := ⟨⟨Dict.empty, maxEntries, maxBytes⟩, []⟩

variable {s t : HotRun} {a : IterOrder × HotOp}

/-- What a step can do. -/
theorem step_cases (h : s.step a = some t) :
    (∃ x rest, s.reclaimed = x :: rest ∧
      (t = ⟨s.hot, rest⟩ ∨ t = ⟨s.hot.restore x.1 x.2, rest⟩)) ∨
    s.reclaimed = [] ∧ (t = s ∨
      (∃ key value c now p, s.hot.prepareUpsert a.1 key value c now = .ok p ∧
        t = ⟨s.hot.commitUpsert p, []⟩) ∨
      (∃ key now, t = ⟨(s.hot.get key now).2, []⟩) ∨ (∃ key, t = ⟨(s.hot.remove key).2, []⟩) ∨
      (∃ now, t = ⟨s.hot.purgeExpired now, []⟩) ∨
      (∃ now, t = ⟨(s.hot.reclaimOne a.1 now).2, (s.hot.reclaimOne a.1 now).1.toList⟩) ∨
      ∃ now limit, t = ⟨(s.hot.reclaimIdle a.1 now limit).2,
        (s.hot.reclaimIdle a.1 now limit).1⟩) := by
  obtain ⟨order, op⟩ := a
  obtain ⟨hot, reclaimed⟩ := s
  cases reclaimed with
  | cons x rest =>
    cases op with
    | settle demoted =>
      cases demoted <;> cases h
      · exact .inl ⟨x, rest, rfl, .inr rfl⟩
      · exact .inl ⟨x, rest, rfl, .inl rfl⟩
    | _ => cases h
  | nil =>
    refine .inr ⟨rfl, ?_⟩
    cases op with
    | settle demoted => cases h
    | upsert key value c now demoted =>
      simp only [step] at h
      split at h
      · exact .inl (Option.some.inj h).symm
      next p hp =>
        cases demoted
        · exact .inl (Option.some.inj h).symm
        · exact .inr (.inl ⟨key, value, c, now, p, hp, (Option.some.inj h).symm⟩)
    | get key now => exact .inr (.inr (.inl ⟨key, now, (Option.some.inj h).symm⟩))
    | remove key => exact .inr (.inr (.inr (.inl ⟨key, (Option.some.inj h).symm⟩)))
    | purgeExpired now => exact .inr (.inr (.inr (.inr (.inl ⟨now, (Option.some.inj h).symm⟩))))
    | reclaimOne now =>
      exact .inr (.inr (.inr (.inr (.inr (.inl ⟨now, (Option.some.inj h).symm⟩)))))
    | reclaimIdle now limit =>
      exact .inr (.inr (.inr (.inr (.inr (.inr ⟨now, limit, (Option.some.inj h).symm⟩)))))

/-- Weight of what is in the store and of what is taken out of it. -/
def weight (f : HotItem → ℕ) (s : HotRun) : ℕ :=
  Dict.weight f s.hot.entries + (s.reclaimed.map f).sum

theorem get_weight_le {f : HotItem → ℕ} (hf : ∀ k e now, f (k, HotStore.touch e now) = f (k, e))
    (hot : HotStore) (key : String) (now : ℕ) :
    Dict.weight f (hot.get key now).2.entries ≤ Dict.weight f hot.entries := by
  have hpurge := Dict.weight_retain_le f hot.entries fun _ e => e.live now
  unfold HotStore.get
  simp only
  split
  · exact hpurge
  next e he => exact (Dict.weight_update f he (hf key e now)).trans_le hpurge

theorem reclaimOne_weight_le (f : HotItem → ℕ) (hot : HotStore) (order : IterOrder) (now : ℕ) :
    Dict.weight f (hot.reclaimOne order now).2.entries +
      ((hot.reclaimOne order now).1.toList.map f).sum ≤ Dict.weight f hot.entries := by
  have hpurge := Dict.weight_retain_le f hot.entries fun _ e => e.live now
  unfold HotStore.reclaimOne
  simp only
  split
  · exact hpurge
  next victim hm =>
    have hres := Dict.mem_rows_iff.mp (order.mem_iter.mp (List.mem_filter.mp (minVictim_mem hm)).1)
    have herase := Dict.weight_erase f hres
    have hvictim : f (victim.1, victim.2) = f victim := rfl
    simp only [Option.toList_some, List.map_singleton, List.sum_singleton]
    rw [HotStore.purgeExpired] at herase ⊢
    dsimp only at herase ⊢
    omega

theorem reclaimIdle_weight_le (f : HotItem → ℕ) (hot : HotStore) (order : IterOrder)
    (now limit : ℕ) :
    Dict.weight f (hot.reclaimIdle order now limit).2.entries +
      ((hot.reclaimIdle order now limit).1.map f).sum ≤ Dict.weight f hot.entries := by
  have hpurge : Dict.weight f (hot.purgeExpired now).entries ≤ Dict.weight f hot.entries :=
    Dict.weight_retain_le f hot.entries fun _ e => e.live now
  have hvictims := HotStore.reclaimIdle_victims hot order now limit
  have hsplit : Dict.weight f (hot.purgeExpired now).entries =
      ((hot.reclaimIdle order now limit).1.map f).sum +
        Dict.weight f (hot.reclaimIdle order now limit).2.entries :=
    Dict.weight_eraseAll f hvictims.nodup fun x hx => by
      have hget := HotStore.get?_purgeExpired hot now x.1
      rw [(hvictims.mem x hx).resident, Option.filter_some, if_pos (hvictims.mem x hx).live] at hget
      exact hget
  omega

/-- Only a commit may make the store heavier. -/
theorem step_weight {f : HotItem → ℕ} (hf : ∀ k e now, f (k, HotStore.touch e now) = f (k, e))
    {limit : ℕ} (hle : s.weight f ≤ limit)
    (hcommit : s.reclaimed = [] → ∀ order key value c now p,
      s.hot.prepareUpsert order key value c now = .ok p →
        Dict.weight f (s.hot.commitUpsert p).entries ≤ limit)
    (h : s.step a = some t) : t.weight f ≤ limit := by
  have hresident : Dict.weight f s.hot.entries ≤ limit := (Nat.le_add_right _ _).trans hle
  rcases step_cases h with ⟨x, rest, hs, rfl | rfl⟩ | ⟨hs, rfl | ⟨key, value, c, now, p, hp, rfl⟩ |
    ⟨key, now, rfl⟩ | ⟨key, rfl⟩ | ⟨now, rfl⟩ | ⟨now, rfl⟩ | ⟨now, l, rfl⟩⟩
  · rw [weight, hs, List.map_cons, List.sum_cons] at hle
    rw [weight]
    dsimp only
    omega
  · have hback : Dict.weight f (s.hot.restore x.1 x.2).entries ≤ Dict.weight f s.hot.entries + f x :=
      Dict.weight_insert_le f s.hot.entries x.1 x.2
    rw [weight, hs, List.map_cons, List.sum_cons] at hle
    rw [weight]
    dsimp only
    omega
  · exact hle
  · exact hcommit hs a.1 key value c now p hp
  · exact (get_weight_le hf s.hot key now).trans hresident
  · exact (Dict.weight_erase_le f s.hot.entries key).trans hresident
  · exact (Dict.weight_retain_le f s.hot.entries fun _ e => e.live now).trans hresident
  · exact (reclaimOne_weight_le f s.hot a.1 now).trans hresident
  · exact (reclaimIdle_weight_le f s.hot a.1 now l).trans hresident

/-- A property of entries that access does not touch, and that every entry admitted has. -/
theorem step_entries {P : String → HotEntry → Prop}
    (htouch : ∀ k e now, P k e → P k (HotStore.touch e now))
    (hnew : ∀ k value c now, P k (HotStore.newEntry value c now))
    (hs : (∀ k e, s.hot.get? k = some e → P k e) ∧ ∀ x ∈ s.reclaimed, P x.1 x.2)
    (h : s.step a = some t) :
    (∀ k e, t.hot.get? k = some e → P k e) ∧ ∀ x ∈ t.reclaimed, P x.1 x.2 := by
  obtain ⟨hres, hout⟩ := hs
  have hlive : ∀ (k : String) (o : Option HotEntry) now e,
      o = s.hot.get? k → (o.filter fun e => e.live now) = some e → P k e := by
    intro k o now e ho he
    exact hres k e (ho ▸ (Option.filter_eq_some_iff.mp he).1)
  have hnil : ∀ x ∈ ([] : List HotItem), P x.1 x.2 := fun x hx => absurd hx List.not_mem_nil
  rcases step_cases h with ⟨x, rest, hx, rfl | rfl⟩ | ⟨hx, rfl | ⟨key, value, c, now, p, hp, rfl⟩ |
    ⟨key, now, rfl⟩ | ⟨key, rfl⟩ | ⟨now, rfl⟩ | ⟨now, rfl⟩ | ⟨now, l, rfl⟩⟩
  · exact ⟨hres, fun y hy => hout y (hx ▸ List.mem_cons_of_mem x hy)⟩
  · refine ⟨fun k e he => ?_, fun y hy => hout y (hx ▸ List.mem_cons_of_mem x hy)⟩
    rw [HotStore.get?_restore] at he
    split_ifs at he with hk
    · cases he
      rw [hk]
      exact hout x (hx ▸ List.mem_cons_self)
    · exact hres k e he
  · exact ⟨hres, hout⟩
  · obtain ⟨-, hentry, -, -⟩ := HotStore.prepareUpsert_spec hp
    refine ⟨fun k e he => ?_, hnil⟩
    rw [HotStore.get?_commitUpsert] at he
    split_ifs at he
    · cases he
      rw [hentry]
      exact hnew k value c now
    · exact hlive k _ _ e rfl he
  · refine ⟨fun k e he => ?_, hnil⟩
    rw [(HotStore.get_spec s.hot key now).2] at he
    obtain ⟨e', he', rfl⟩ := Option.map_eq_some_iff.mp he
    split_ifs
    · exact htouch k e' now (hlive k _ now e' rfl he')
    · exact hlive k _ now e' rfl he'
  · refine ⟨fun k e he => ?_, hnil⟩
    rw [HotStore.get?_remove] at he
    split_ifs at he
    exact hres k e he
  · refine ⟨fun k e he => ?_, hnil⟩
    rw [HotStore.get?_purgeExpired] at he
    exact hlive k _ now e rfl he
  · cases hone : (s.hot.reclaimOne a.1 now).1 with
    | none =>
      refine ⟨fun k e he => ?_, hnil⟩
      dsimp only at he
      rw [HotStore.reclaimOne_none s.hot a.1 now hone, HotStore.get?_purgeExpired] at he
      exact hlive k _ now e rfl he
    | some x =>
      obtain ⟨hget, -, -, hrest⟩ := HotStore.reclaimOne_some s.hot a.1 now hone
      refine ⟨fun k e he => ?_, fun y hy => ?_⟩
      · dsimp only at he
        rw [hrest] at he
        split_ifs at he
        exact hlive k _ now e rfl he
      · rw [Option.toList_some, List.mem_singleton] at hy
        exact hy ▸ hres x.1 x.2 hget
  · obtain ⟨hvictims, hrest⟩ := HotStore.reclaimIdle_spec s.hot a.1 now l
    refine ⟨fun k e he => ?_, fun x hx => hres x.1 x.2 (hvictims x hx).1⟩
    dsimp only at he
    rw [hrest] at he
    split_ifs at he
    exact hlive k _ now e rfl he

/-- What the limits bound, over what is in the store and what is taken out of it. -/
structure Within (maxEntries maxBytes : ℕ) (s : HotRun) : Prop where
  limits : s.hot.maxEntries = maxEntries ∧ s.hot.maxBytes = maxBytes
  count : s.weight (fun _ => 1) ≤ maxEntries
  bytes : s.weight (fun x => HotEntry.bytes x.1 x.2) ≤ maxBytes
  sized : (∀ k e, s.hot.get? k = some e → e.sizeBytes = jsonLen e.value) ∧
    ∀ x ∈ s.reclaimed, x.2.sizeBytes = jsonLen x.2.value

theorem step_limits (h : s.step a = some t) :
    t.hot.maxEntries = s.hot.maxEntries ∧ t.hot.maxBytes = s.hot.maxBytes := by
  rcases step_cases h with ⟨x, rest, hx, rfl | rfl⟩ | ⟨hx, rfl | ⟨key, value, c, now, p, hp, rfl⟩ |
    ⟨key, now, rfl⟩ | ⟨key, rfl⟩ | ⟨now, rfl⟩ | ⟨now, rfl⟩ | ⟨now, l, rfl⟩⟩
  · exact ⟨rfl, rfl⟩
  · exact ⟨rfl, rfl⟩
  · exact ⟨rfl, rfl⟩
  · exact ⟨rfl, rfl⟩
  · unfold HotStore.get
    simp only
    split <;> exact ⟨rfl, rfl⟩
  · exact ⟨rfl, rfl⟩
  · exact ⟨rfl, rfl⟩
  · unfold HotStore.reclaimOne
    simp only
    split <;> exact ⟨rfl, rfl⟩
  · exact ⟨rfl, rfl⟩

theorem start_within (maxEntries maxBytes : ℕ) : Within maxEntries maxBytes (start maxEntries maxBytes) where
  limits := ⟨rfl, rfl⟩
  count := Nat.zero_le _
  bytes := Nat.zero_le _
  sized := ⟨fun k e h => (by cases h), fun x hx => absurd hx List.not_mem_nil⟩

theorem Within.count_le {maxEntries maxBytes : ℕ} (h : Within maxEntries maxBytes s) :
    s.hot.entries.rows.length ≤ maxEntries := by
  rw [← Dict.weight_one]
  exact (Nat.le_add_right _ _).trans h.count

theorem Within.step {maxEntries maxBytes : ℕ} (hw : Within maxEntries maxBytes s)
    (h : s.step a = some t) : Within maxEntries maxBytes t := by
  obtain ⟨hentries, hbytes⟩ := hw.limits
  have hlimits := step_limits h
  refine ⟨⟨hlimits.1.trans hentries, hlimits.2.trans hbytes⟩, ?_, ?_, ?_⟩
  · refine step_weight (fun _ _ _ => rfl) hw.count (fun _ order key value c now p hp => ?_) h
    rw [Dict.weight_one, ← hentries]
    refine HotStore.commitUpsert_count hp ?_
    rw [hentries]
    exact hw.count_le
  · refine step_weight (fun _ _ _ => rfl) hw.bytes (fun _ order key value c now p hp => ?_) h
    rw [← hbytes]
    exact HotStore.commitUpsert_bytes hp
  · exact step_entries (fun _ _ _ he => he) (fun _ _ _ _ => rfl) hw.sized h

theorem reachable_within {maxEntries maxBytes : ℕ}
    (h : machine.Reachable (start maxEntries maxBytes) s) : Within maxEntries maxBytes s :=
  h.invariant (start_within maxEntries maxBytes) fun _ _ _ hw _ hs => hw.step hs

end HotRun

/-! ### The manager's calls -/

namespace Manager

variable {policy : MemoryPolicy} {platform : Platform} {s t u : Manager}

/-- Hot went from `s` to `t` by calls of the manager. -/
def Ran (s t : Manager) : Prop := HotRun.machine.Reachable ⟨s.hot, []⟩ ⟨t.hot, []⟩

theorem Ran.of_same (h : t.hot = s.hot) : Ran s t := by
  rw [Ran, h]
  exact .refl

theorem Ran.trans (h : Ran s t) (h' : Ran t u) : Ran s u := Machine.Reach.trans h h'

theorem Ran.of_step (op : HotOp) (h : HotRun.step ⟨s.hot, []⟩ (platform.order, op) = some ⟨t.hot, []⟩) :
    Ran s t := .step .refl trivial h

theorem ran_commit {key : String} {value : Value} {c : ClassPolicy} {now : ℕ} {p : PreparedUpsert}
    (hp : s.hot.prepareUpsert platform.order key value c now = .ok p)
    (ht : t.hot = s.hot.commitUpsert p) : Ran s t := by
  refine @Ran.of_step platform s t (.upsert key value c now true) ?_
  simp only [HotRun.step, hp, ht, if_pos]

theorem hotUpsert_ran (policy : MemoryPolicy) (platform : Platform) (s : Manager) (key : String)
    (value : Value) (c : ClassPolicy) (now : ℕ) :
    Ran s (s.hotUpsert policy platform key value c now).2 := by
  unfold hotUpsert
  split
  · exact .of_same rfl
  next p hp =>
    have hd := (demoteVictims_demoted policy platform s p.victims).hot
    split <;> rename_i ht <;> rw [ht] at hd
    · exact .of_same hd
    next t =>
      refine ran_commit hp ?_
      rw [← hd]

theorem enterHot_ran (policy : MemoryPolicy) (platform : Platform) (s : Manager) (key : String)
    (value : Value) (c : ClassPolicy) (now : ℕ) :
    Ran s (s.enterHot policy platform key value c now).2 := by
  by_cases hnow : c.policy = .immediate ∨ c.policy = .persistent
  · rw [enterHot_now policy platform s key value now hnow]
    split
    · exact .of_same rfl
    next p hp =>
      have hd := (demoteVictims_demoted policy platform s p.victims).hot
      split <;> rename_i ht <;> rw [ht] at hd
      · exact .of_same hd
      next t =>
        split <;> rename_i hu
        · rw [persistNow_error hu]
          exact .of_same hd
        · obtain ⟨accepted, -, rfl⟩ := persistNow_ok hu
          refine ran_commit hp ?_
          rw [← hd]
  · rw [enterHot_later policy platform s key value now hnow]
    exact hotUpsert_ran policy platform s key value c now

theorem upsertAt_ran (policy : MemoryPolicy) (platform : Platform) (s : Manager) (key : String)
    (value : Value) (className : String) (now : ℕ) :
    Ran s (s.upsertAt policy platform key value className now).2 := by
  unfold upsertAt
  split
  · exact .of_same rfl
  next c _ =>
    have henter := enterHot_ran policy platform s key value c now
    split <;> rename_i ht <;> rw [ht] at henter
    · exact henter
    next t =>
      exact henter.trans (.of_same (publish_frame policy platform t key value c now).1)

theorem promoteFrom_ran (policy : MemoryPolicy) (platform : Platform) (s : Manager) (tier : Tier)
    (key : String) (now : ℕ) : Ran s (s.promoteFrom policy platform tier key now).2 := by
  unfold promoteFrom
  split
  · exact .of_same rfl
  next entry _ =>
    unfold promote
    split
    · exact .of_same rfl
    next c _ => exact hotUpsert_ran policy platform s key entry.value c now

theorem getAt_ran (policy : MemoryPolicy) (platform : Platform) (s : Manager) (key : String)
    (now : ℕ) : Ran s (s.getAt policy platform key now).2 := by
  have hflush := (flush_frame platform s now false).1
  have hget : ∀ value hot, (s.flushDeferredAt platform now false).2.hot.get key now = (value, hot) →
      Ran s { (s.flushDeferredAt platform now false).2 with hot := hot } := by
    intro value hot hread
    refine @Ran.of_step platform _ _ (.get key now) ?_
    simp only [HotRun.step, ← hflush, hread]
  unfold getAt
  simp only
  split
  next value hot hread => exact hget _ hot hread
  next hot hread =>
    have hwarm := (hget _ hot hread).trans (promoteFrom_ran policy platform _ .warm key now)
    split <;> rename_i ht <;> rw [ht] at hwarm
    · exact hwarm
    next t =>
      have hcold := hwarm.trans (promoteFrom_ran policy platform t .cold key now)
      split <;> rename_i hu <;> rw [hu] at hcold
      · exact hcold
      next u => exact hcold.trans (promoteFrom_ran policy platform u .frozen key now)

theorem remove_ran (platform : Platform) (s : Manager) (key : String) :
    Ran s (s.remove platform key).2 := by
  have hkeep : ∀ (m : Manager) tier, (m.tierRemove platform tier key).2.hot = m.hot := by
    intro m tier
    unfold tierRemove
    split <;> rfl
  refine @Ran.of_step platform _ _ (.remove key) ?_
  unfold remove
  simp only [HotRun.step, hkeep]

theorem restore_ran (victims : List HotItem) (hot : HotStore) :
    HotRun.machine.Reachable ⟨hot, victims⟩
      ⟨victims.foldl (fun hot y => hot.restore y.1 y.2) hot, []⟩ := by
  induction victims generalizing hot with
  | nil => exact .refl
  | cons x victims ih =>
    rw [List.foldl_cons]
    have hone : HotRun.machine.step ⟨hot, x :: victims⟩ (.asStored, .settle false) =
        some ⟨hot.restore x.1 x.2, victims⟩ := rfl
    exact .trans (.step .refl trivial hone) (ih (hot.restore x.1 x.2))

theorem applyDemotions_ran (policy : MemoryPolicy) (platform : Platform) (victims : List HotItem)
    (s : Manager) : HotRun.machine.Reachable ⟨s.hot, victims⟩
      ⟨(s.applyDemotions policy platform victims).2.hot, []⟩ := by
  induction victims generalizing s with
  | nil => exact .refl
  | cons x victims ih =>
    have hw := (demoteOrDrop_wrote policy platform s x.1 x.2).hot
    unfold applyDemotions
    split <;> rename_i ht <;> rw [ht] at hw
    · rw [← hw]
      exact restore_ran (x :: victims) _
    next t =>
      have hone : HotRun.machine.step ⟨s.hot, x :: victims⟩ (.asStored, .settle true) =
          some ⟨s.hot, victims⟩ := rfl
      rw [← hw] at hone ⊢
      exact .trans (.step .refl trivial hone) (ih t)

theorem notifyPressure_ran (policy : MemoryPolicy) (platform : Platform) (s : Manager) (now : ℕ) :
    Ran s (s.notifyPressure policy platform now).2 := by
  have hflush := (flush_frame platform s now true).1
  unfold notifyPressure
  split <;> rename_i ht <;> rw [ht] at hflush
  · exact .of_same hflush
  next n t =>
    have hone : HotRun.machine.step ⟨s.hot, []⟩ (platform.order, .reclaimOne now) =
        some ⟨(t.hot.reclaimOne platform.order now).2,
          (t.hot.reclaimOne platform.order now).1.toList⟩ := by
      dsimp only at hflush
      rw [hflush]
      rfl
    split <;> rename_i hr <;> rw [hr] at hone
    · exact .step .refl trivial hone
    next key entry hot =>
      have hw := (demoteOrDrop_wrote policy platform { t with hot := hot } key entry).hot
      split <;> rename_i hu <;> rw [hu] at hw
      · have hback := restore_ran [(key, entry)] hot
        rw [← show _ = hot from hw] at hone hback
        exact Machine.Reach.trans (.step .refl trivial hone) hback
      · have hdone : HotRun.machine.step ⟨hot, [(key, entry)]⟩ (.asStored, .settle true) =
            some ⟨hot, []⟩ := rfl
        rw [← show _ = hot from hw] at hone hdone
        exact .step (.step .refl trivial hone) trivial hdone

theorem poll_ran (policy : MemoryPolicy) (platform : Platform) (s : Manager) (now : ℕ) :
    Ran s (s.poll policy platform now).2 := by
  have hflush := (flush_frame platform s now false).1
  unfold poll
  split <;> rename_i ht <;> rw [ht] at hflush
  · exact .of_same hflush
  next n t =>
    have hone : HotRun.machine.step ⟨s.hot, []⟩ (platform.order, .reclaimIdle now 64) =
        some ⟨(t.hot.reclaimIdle platform.order now 64).2,
          (t.hot.reclaimIdle platform.order now 64).1⟩ := by
      dsimp only at hflush
      rw [hflush]
      rfl
    have hrest := applyDemotions_ran policy platform (t.hot.reclaimIdle platform.order now 64).1
      { t with hot := (t.hot.reclaimIdle platform.order now 64).2 }
    have hall := Machine.Reach.trans (.step .refl trivial hone) hrest
    unfold demoteIdleAt
    simp only
    split <;> rename_i hu <;> rw [hu] at hall <;> exact hall

/-- Every run of the manager, whatever fails, is a run of the Hot store. -/
theorem life_hot {sink : Bool} {m : Manager} (hm : create policy sink = .ok m)
    (h : (life policy).Reachable m s) :
    HotRun.machine.Reachable (HotRun.start policy.maxEntries policy.maxHotBytes) ⟨s.hot, []⟩ := by
  refine Machine.Reach.invariant (I := fun s : Manager => HotRun.machine.Reachable
    (HotRun.start policy.maxEntries policy.maxHotBytes) ⟨s.hot, []⟩) h ?_ fun s a t hi _ hs => ?_
  · unfold create at hm
    split at hm <;> cases hm
    exact .refl
  · cases Option.some.inj hs
    obtain ⟨platform, op⟩ := a
    cases op with
    | memory op =>
      refine hi.trans ?_
      cases op with
      | upsert key value className now => exact upsertAt_ran policy platform s key value className now
      | get key now => exact getAt_ran policy platform s key now
      | remove key => exact remove_ran platform s key
      | notifyPressure now => exact notifyPressure_ran policy platform s now
      | poll now => exact poll_ran policy platform s now
    | flush now =>
      exact hi.trans (Ran.of_same (flush_frame platform s now true).1)
    | reopen now => exact .refl

end Manager

/-! ### What every run keeps -/

namespace HotStore

/-- What leaves a store, and what comes back to it. -/
structure Orderly (hot : HotStore) : Prop where
  /-- an admission evicts, in the order of eviction, other entries that are live -/
  admits : ∀ order key value c now p, hot.prepareUpsert order key value c now = .ok p →
    InVictimOrder (hot.Victim key now) p.victims ∧ ∀ x ∈ p.victims, x.2.priority ≠ .critical
  /-- pressure evicts the least live entry -/
  presses : ∀ order now x, (hot.reclaimOne order now).1 = some x →
    InVictimOrder (hot.Evictable now) [x] ∧ x.2.priority ≠ .critical ∧
      ∀ k, ((hot.reclaimOne order now).2.restore x.1 x.2).get? k = (hot.purgeExpired now).get? k
  /-- maintenance evicts, in the order of eviction, live entries whose idle time is over -/
  idles : ∀ order now limit, InVictimOrder (hot.Idle now) (hot.reclaimIdle order now limit).1 ∧
    ∀ x ∈ (hot.reclaimIdle order now limit).1, x.2.priority ≠ .critical
  /-- the victims that are put back are where they were -/
  restores : ∀ order now limit done rest, (hot.reclaimIdle order now limit).1 = done ++ rest →
    ∀ k, (rest.foldl (fun hot y => hot.restore y.1 y.2) (hot.reclaimIdle order now limit).2).get? k =
      if k ∈ done.map Prod.fst then none else (hot.purgeExpired now).get? k
  /-- an upsert that fails, in the demotion of a victim too, changes nothing -/
  refuses : ∀ policy platform (m : Manager) key value c now e t, m.hot = hot →
    m.hotUpsert policy platform key value c now = (.error e, t) → t.hot = hot

theorem not_critical {e : HotEntry} (h : e.evictable = true) : e.priority ≠ .critical := by
  intro hp
  rw [HotEntry.evictable, hp] at h
  exact absurd h (by decide)

theorem orderly (hot : HotStore) : hot.Orderly where
  admits := fun order key value c now p hp => by
    have hv := (prepareUpsert_victims hp).1
    exact ⟨hv, fun x hx => not_critical (hv.mem x hx).evictable⟩
  presses := fun order now x hx => by
    obtain ⟨hget, hlive, hev, hrest⟩ := reclaimOne_some hot order now hx
    refine ⟨reclaimOne_victim hx, not_critical hev, fun k => ?_⟩
    rw [get?_restore, hrest, get?_purgeExpired]
    by_cases hk : k = x.1
    · rw [if_pos hk, hk, hget, Option.filter_some, if_pos hlive]
    · rw [if_neg hk, if_neg hk]
  idles := fun order now limit => by
    refine ⟨reclaimIdle_victims hot order now limit, fun x hx => ?_⟩
    exact not_critical ((reclaimIdle_spec hot order now limit).1 x hx).2.2
  restores := fun order now limit done rest hsplit k => by
    obtain ⟨hvictims, htaken⟩ := reclaimIdle_spec hot order now limit
    refine @restore_reclaimed (hot.purgeExpired now) _ _ done rest (fun x hx => ?_)
      (reclaimIdle_victims hot order now limit).nodup (fun k => ?_) hsplit k
    · rw [get?_purgeExpired, (hvictims x hx).1, Option.filter_some, if_pos (hvictims x hx).2.1]
    · rw [htaken, get?_purgeExpired]
  refuses := fun policy platform m key value c now e t hm ht => by
    have hadm := (Manager.hotUpsert_admitted policy platform m key value c now).1
    rw [ht] at hadm
    rw [hadm.refused (by simp), hm]

end HotStore

namespace HotRun

/-- After every operation the store is within its limits, whatever was demoted
and whatever came back, and what it gives up it gives up in order. -/
theorem hot_within {maxEntries maxBytes : ℕ} {s : HotRun}
    (h : machine.Reachable (start maxEntries maxBytes) s) :
    s.hot.entries.rows.length ≤ maxEntries ∧ s.hot.bytes ≤ maxBytes ∧
      (∀ k e, s.hot.get? k = some e → e.sizeBytes = jsonLen e.value) ∧ s.hot.Orderly := by
  have hw := reachable_within h
  refine ⟨hw.count_le, ?_, hw.sized.1, s.hot.orderly⟩
  exact (Nat.le_add_right _ _).trans hw.bytes

/-- A class of entries that idle after ten, and one of lower priority that do not. -/
def idleClass : ClassPolicy := ⟨"a", .cache, .warm, some 100, none, .normal, some 10⟩

def lowClass : ClassPolicy := ⟨"b", .volatile, .hot, some 100, none, .low, none⟩

/-- The store is full: the first entry is taken out and comes back, then makes
room for the third. -/
def filling : List (IterOrder × HotOp) :=
  [(.asStored, .upsert "k" one idleClass 0 true), (.asStored, .upsert "m" two idleClass 5 true),
    (.asStored, .reclaimIdle 15 1), (.asStored, .settle false),
    (.asStored, .upsert "n" one lowClass 16 true)]

theorem hot_within_filling : ∃ s, machine.exec (start 2 4) filling = some s ∧
    (s.hot.entries.rows.map Prod.fst) = ["m", "n"] ∧ s.hot.bytes ≤ 4 := by
  refine ⟨_, rfl, by decide +kernel, ?_⟩
  exact (@hot_within 2 4 _ (.of_exec filling rfl fun _ _ _ => trivial)).2.1

/-- Maintenance takes an idle entry of normal priority and leaves one of low
priority that is not idle. -/
theorem idle_victim_not_least : ∃ s, machine.Reachable (start 4 1024) s ∧
    ¬ ∀ order now limit, InVictimOrder (s.hot.Evictable now) (s.hot.reclaimIdle order now limit).1 := by
  refine ⟨_, .of_exec [(.asStored, .upsert "k" one idleClass 0 true),
    (.asStored, .upsert "m" two lowClass 5 true)] rfl fun _ _ _ => trivial, fun h => ?_⟩
  have hleast := (h .asStored 20 1).least [] ("k", HotStore.newEntry one idleClass 0) []
    (by rfl) ("m", HotStore.newEntry two lowClass 5) ⟨by rfl, by decide, by decide⟩
    List.not_mem_nil
  rw [HotEntry.precedes_iff] at hleast
  revert hleast
  decide

end HotRun

/-- The Hot store of every manager is within the limits of its policy. -/
theorem Manager.life_within {policy : MemoryPolicy} {sink : Bool} {m s : Manager}
    (hm : Manager.create policy sink = .ok m) (h : (life policy).Reachable m s) :
    s.hot.entries.rows.length ≤ policy.maxEntries ∧ s.hot.bytes ≤ policy.maxHotBytes := by
  have hw := HotRun.reachable_within (Manager.life_hot hm h)
  exact ⟨hw.count_le, (Nat.le_add_right _ _).trans hw.bytes⟩

end Jaiba.Memory
