import Mathlib.Data.Option.Basic
import Mathlib.Data.String.Basic
import Jaiba.Lib.Except
import Jaiba.Lib.Table

/-!
# Dictionaries

`Dict` is a map as a keyed table, in no particular order (a hash map: what
iterates over it is given the order from outside). `OrderedDict` keeps its
entries in the order of the keys (a B-tree map).
-/

namespace Jaiba.Lib

/-! ### Related options -/

section
variable {α β : Type} {r r' : α → β → Prop}

theorem eq_none_of_rel_left {b : Option β} (h : Option.Rel r none b) : b = none := by
  cases h
  rfl

theorem eq_none_of_rel_right {a : Option α} (h : Option.Rel r a none) : a = none := by
  cases h
  rfl

theorem exists_of_rel_left {a : α} {b : Option β} (h : Option.Rel r (some a) b) :
    ∃ b', b = some b' ∧ r a b' := by
  cases h with
  | some h => exact ⟨_, rfl, h⟩

theorem exists_of_rel_right {a : Option α} {b : β} (h : Option.Rel r a (some b)) :
    ∃ a', a = some a' ∧ r a' b := by
  cases h with
  | some h => exact ⟨_, rfl, h⟩

theorem rel_mono (himp : ∀ a b, r a b → r' a b) {a : Option α} {b : Option β} (h : Option.Rel r a b) :
    Option.Rel r' a b := by
  cases h with
  | none => exact .none
  | some h => exact .some (himp _ _ h)

end

/-! ### Hash maps -/

abbrev Dict (κ ν : Type) := Table κ (κ × ν) Prod.fst

namespace Dict

variable {κ ν : Type} [DecidableEq κ]

def empty : Dict κ ν := Table.empty

def get? (d : Dict κ ν) (k : κ) : Option ν := (d.find? k).map Prod.snd

def erase (d : Dict κ ν) (k : κ) : Dict κ ν := d.deleteWhere fun e => e.1 = k

/-- Keep the entries that satisfy `p`. -/
def retain (d : Dict κ ν) (p : κ → ν → Bool) : Dict κ ν := d.deleteWhere fun e => !p e.1 e.2

/-- Insert or replace. -/
def insert (d : Dict κ ν) (k : κ) (v : ν) : Dict κ ν where
  rows := (erase d k).rows ++ [(k, v)]
  primaryKey := by
    rw [List.map_append, List.map_cons, List.map_nil]
    refine List.nodup_append.mpr ⟨(erase d k).primaryKey, List.nodup_singleton _, ?_⟩
    rintro a ha b hb rfl
    obtain ⟨e, he, rfl⟩ := List.mem_map.mp ha
    have hne := (List.mem_filter.mp he).2
    simp [List.mem_singleton.mp hb] at hne

theorem mem_rows_iff {d : Dict κ ν} {k : κ} {v : ν} : (k, v) ∈ d.rows ↔ get? d k = some v := by
  constructor
  · intro h
    have hf : d.find? k = some (k, v) := Table.find?_of_mem h
    rw [get?, hf]
    rfl
  · intro h
    obtain ⟨⟨k', v'⟩, hf, rfl⟩ := Option.map_eq_some_iff.mp h
    have hk : k' = k := Table.find?_key hf
    exact hk ▸ Table.find?_mem hf

@[simp] theorem get?_empty (k : κ) : get? (empty : Dict κ ν) k = none := rfl

theorem get?_retain (d : Dict κ ν) (p : κ → ν → Bool) (k : κ) :
    get? (retain d p) k = (get? d k).filter (p k) := by
  rw [get?, retain, Table.find?_deleteWhere, get?]
  cases hf : d.find? k with
  | none => rfl
  | some e =>
    have hk : e.1 = k := Table.find?_key hf
    rw [← hk, Option.filter_some, Option.map_some, Option.filter_some]
    cases hp : p e.1 e.2 <;> simp

theorem get?_erase (d : Dict κ ν) (k k' : κ) :
    get? (erase d k) k' = if k' = k then none else get? d k' := by
  rw [get?, erase, Table.find?_deleteWhere, get?]
  cases hf : d.find? k' with
  | none => simp
  | some e =>
    have hk : e.1 = k' := Table.find?_key hf
    rw [Option.filter_some, hk]
    by_cases h : k' = k <;> simp [h]

@[simp] theorem get?_erase_self (d : Dict κ ν) (k : κ) : get? (erase d k) k = none := by
  simp [get?_erase]

theorem get?_insert (d : Dict κ ν) (k : κ) (v : ν) (k' : κ) :
    get? (insert d k v) k' = if k' = k then some v else get? d k' := by
  have hsplit : (insert d k v).find? k' =
      ((erase d k).find? k').or ([(k, v)].find? fun e => e.1 = k') := List.find?_append
  have herase := get?_erase d k k'
  rw [get?] at herase ⊢
  rw [hsplit]
  by_cases h : k' = k
  · subst h
    rw [if_pos rfl, Option.map_eq_none_iff] at herase
    simp [herase]
  · have h' : k ≠ k' := fun he => h he.symm
    rw [if_neg h] at herase
    simp [h, h', herase]

@[simp] theorem get?_insert_self (d : Dict κ ν) (k : κ) (v : ν) :
    get? (insert d k v) k = some v := by simp [get?_insert]

theorem length_insert_of_none {d : Dict κ ν} {k : κ} (h : get? d k = none) (v : ν) :
    (insert d k v).rows.length = d.rows.length + 1 := by
  have hkeep : (erase d k).rows = d.rows := by
    refine List.filter_eq_self.mpr fun e he => ?_
    have hne : e.1 ≠ k := by
      rintro rfl
      rw [mem_rows_iff.mp he] at h
      cases h
    simp [hne]
  have hrows : (insert d k v).rows = (erase d k).rows ++ [(k, v)] := rfl
  rw [hrows, hkeep, List.length_append, List.length_singleton]

theorem length_erase_lt {d : Dict κ ν} {k : κ} {v : ν} (h : get? d k = some v) :
    (erase d k).rows.length < d.rows.length :=
  List.length_filter_lt_length_iff_exists.mpr ⟨(k, v), mem_rows_iff.mpr h, by simp⟩

/-- Insert the values of a list under their keys, one after another. -/
def insertAll (d : Dict κ ν) (vs : List ν) (key : ν → κ) : Dict κ ν :=
  vs.foldl (fun d v => insert d (key v) v) d

theorem get?_insertAll (d : Dict κ ν) {vs : List ν} {key : ν → κ} (hn : (vs.map key).Nodup) (k : κ) :
    get? (insertAll d vs key) k = (vs.find? fun v => key v = k).or (get? d k) := by
  induction vs generalizing d with
  | nil => rfl
  | cons v vs ih =>
    rw [List.map_cons, List.nodup_cons] at hn
    have h := ih (insert d (key v) v) hn.2
    rw [insertAll] at h ⊢
    rw [List.foldl_cons, h, get?_insert]
    by_cases hk : key v = k
    · have hnone : vs.find? (fun v => key v = k) = none := by
        rw [List.find?_eq_none]
        intro w hw he
        exact hn.1 (List.mem_map.mpr ⟨w, hw, (of_decide_eq_true he).trans hk.symm⟩)
      simp [hk, hnone]
    · simp [hk, Ne.symm hk]

/-- Erase every key of a list. -/
def eraseAll (d : Dict κ ν) (ks : List κ) : Dict κ ν := ks.foldl erase d

theorem get?_eraseAll (d : Dict κ ν) (ks : List κ) (k : κ) :
    get? (eraseAll d ks) k = if k ∈ ks then none else get? d k := by
  induction ks generalizing d with
  | nil => simp [eraseAll]
  | cons x ks ih =>
    have h := ih (erase d x)
    rw [eraseAll] at h ⊢
    rw [List.foldl_cons, h, get?_erase]
    by_cases hx : k = x <;> by_cases hk : k ∈ ks <;> simp [hx, hk]

end Dict

/-- Entries in the order of their keys. -/
structure OrderedDict (κ ν : Type) [LinearOrder κ] where
  entries : List (κ × ν)
  sorted : (entries.map Prod.fst).Pairwise (· < ·)

namespace OrderedDict

variable {κ ν : Type} [LinearOrder κ]

def empty : OrderedDict κ ν := ⟨[], List.Pairwise.nil⟩

def get? (d : OrderedDict κ ν) (k : κ) : Option ν := d.entries.lookup k

theorem get?_none_iff {d : OrderedDict κ ν} {k : κ} : d.get? k = none ↔ ∀ e ∈ d.entries, e.1 ≠ k := by
  rw [get?, List.lookup_eq_none_iff]
  refine forall₂_congr fun e _ => ?_
  rw [bne_iff_ne, ne_comm]

def insertEntry (k : κ) (v : ν) : List (κ × ν) → List (κ × ν)
  | [] => [(k, v)]
  | e :: es =>
    if k < e.1 then (k, v) :: e :: es
    else if e.1 < k then e :: insertEntry k v es
    else (k, v) :: es

theorem mem_insertEntry_key {k x : κ} {v : ν} {es : List (κ × ν)}
    (h : x ∈ (insertEntry k v es).map Prod.fst) : x = k ∨ x ∈ es.map Prod.fst := by
  induction es with
  | nil => simpa [insertEntry] using h
  | cons e es ih =>
    unfold insertEntry at h
    split_ifs at h with h1 h2
    · simpa using h
    · rcases List.mem_cons.mp h with h | h
      · exact .inr (h ▸ List.mem_cons_self)
      · exact (ih h).imp_right (List.mem_cons_of_mem _)
    · rcases List.mem_cons.mp h with h | h
      · exact .inl h
      · exact .inr (List.mem_cons_of_mem _ h)

theorem insertEntry_sorted (k : κ) (v : ν) {es : List (κ × ν)}
    (h : (es.map Prod.fst).Pairwise (· < ·)) :
    ((insertEntry k v es).map Prod.fst).Pairwise (· < ·) := by
  induction es with
  | nil => simp [insertEntry]
  | cons e es ih =>
    rw [List.map_cons, List.pairwise_cons] at h
    unfold insertEntry
    split_ifs with h1 h2
    · rw [List.map_cons, List.map_cons, List.pairwise_cons]
      refine ⟨fun x hx => ?_, List.pairwise_cons.mpr h⟩
      rcases List.mem_cons.mp hx with rfl | hx
      · exact h1
      · exact h1.trans (h.1 x hx)
    · rw [List.map_cons, List.pairwise_cons]
      refine ⟨fun x hx => ?_, ih h.2⟩
      rcases mem_insertEntry_key hx with rfl | hx
      · exact h2
      · exact h.1 x hx
    · have heq : k = e.1 := le_antisymm (not_lt.mp h2) (not_lt.mp h1)
      rw [List.map_cons, List.pairwise_cons]
      exact ⟨fun x hx => heq ▸ h.1 x hx, h.2⟩

/-- Insert or replace. -/
def insert (d : OrderedDict κ ν) (k : κ) (v : ν) : OrderedDict κ ν :=
  ⟨insertEntry k v d.entries, insertEntry_sorted k v d.sorted⟩

theorem mem_insertEntry {k : κ} {v : ν} {es : List (κ × ν)} {e : κ × ν}
    (h : e ∈ insertEntry k v es) : e = (k, v) ∨ e ∈ es := by
  induction es with
  | nil => exact .inl (List.mem_singleton.mp h)
  | cons x es ih =>
    unfold insertEntry at h
    split_ifs at h with h1 h2
    · exact List.mem_cons.mp h
    · rcases List.mem_cons.mp h with h | h
      · exact .inr (h ▸ List.mem_cons_self)
      · exact (ih h).imp_right (List.mem_cons_of_mem x)
    · exact (List.mem_cons.mp h).imp_right (List.mem_cons_of_mem x)

theorem mem_insert {d : OrderedDict κ ν} {k : κ} {v : ν} {e : κ × ν}
    (h : e ∈ (d.insert k v).entries) : e = (k, v) ∨ e ∈ d.entries := mem_insertEntry h

theorem lookup_cons (e : κ × ν) (es : List (κ × ν)) (k : κ) :
    (e :: es).lookup k = if k = e.1 then some e.2 else es.lookup k := by
  rw [List.lookup_cons]
  by_cases h : k = e.1
  · rw [if_pos h, beq_iff_eq.mpr h]
  · rw [if_neg h, beq_eq_false_iff_ne.mpr h]

theorem lookup_insertEntry (k : κ) (v : ν) (es : List (κ × ν)) (k' : κ) :
    (insertEntry k v es).lookup k' = if k' = k then some v else es.lookup k' := by
  induction es with
  | nil => exact lookup_cons (k, v) [] k'
  | cons e es ih =>
    rw [insertEntry]
    split
    · exact lookup_cons (k, v) (e :: es) k'
    next h1 =>
      split
      next h2 =>
        rw [lookup_cons, ih, lookup_cons]
        by_cases hk : k' = k
        · have hne : k' ≠ e.1 := hk ▸ h2.ne'
          rw [if_neg hne, if_pos hk, if_pos hk]
        · rw [if_neg hk, if_neg hk]
      next h2 =>
        have heq : k = e.1 := le_antisymm (not_lt.mp h2) (not_lt.mp h1)
        rw [lookup_cons, lookup_cons, heq]
        by_cases hk : k' = e.1
        · rw [if_pos hk, if_pos hk]
        · rw [if_neg hk, if_neg hk, if_neg hk]

theorem get?_insert (d : OrderedDict κ ν) (k : κ) (v : ν) (k' : κ) :
    (d.insert k v).get? k' = if k' = k then some v else d.get? k' := lookup_insertEntry k v d.entries k'

/-- The keys in ascending order. -/
def keys (d : OrderedDict κ ν) : List κ := d.entries.map Prod.fst

theorem mem_keys_iff {d : OrderedDict κ ν} {k : κ} : k ∈ d.keys ↔ d.get? k ≠ none := by
  rw [Ne, get?_none_iff, keys, List.mem_map]
  push Not
  rfl

theorem insertEntry_keys_of_mem {k : κ} {v : ν} {es : List (κ × ν)}
    (hs : (es.map Prod.fst).Pairwise (· < ·)) (h : k ∈ es.map Prod.fst) :
    (insertEntry k v es).map Prod.fst = es.map Prod.fst := by
  induction es with
  | nil => cases h
  | cons e es ih =>
    rw [List.map_cons, List.pairwise_cons] at hs
    rw [insertEntry]
    split_ifs with h1 h2
    · rcases List.mem_cons.mp h with rfl | h
      · exact (lt_irrefl _ h1).elim
      · exact (lt_asymm h1 (hs.1 k h)).elim
    · rcases List.mem_cons.mp h with rfl | h
      · exact (lt_irrefl _ h2).elim
      · rw [List.map_cons, ih hs.2 h, List.map_cons]
    · have heq : k = e.1 := le_antisymm (not_lt.mp h2) (not_lt.mp h1)
      rw [List.map_cons, List.map_cons, heq]

theorem keys_insert_of_mem {d : OrderedDict κ ν} {k : κ} (v : ν) (h : k ∈ d.keys) :
    (d.insert k v).keys = d.keys := insertEntry_keys_of_mem d.sorted h

/-- A key above all others is inserted at the end. -/
theorem keys_insert_last {d : OrderedDict κ ν} {k : κ} (v : ν) (h : ∀ x ∈ d.keys, x < k) :
    (d.insert k v).keys = d.keys ++ [k] := by
  have hentries : ∀ es : List (κ × ν), (∀ x ∈ es.map Prod.fst, x < k) →
      insertEntry k v es = es ++ [(k, v)] := by
    intro es
    induction es with
    | nil => exact fun _ => rfl
    | cons e es ih =>
      intro hlt
      rw [List.map_cons, List.forall_mem_cons] at hlt
      rw [insertEntry, if_neg (lt_asymm hlt.1), if_pos hlt.1, ih hlt.2, List.cons_append]
  have hkeys : (d.insert k v).keys = (insertEntry k v d.entries).map Prod.fst := rfl
  rw [hkeys, hentries d.entries h, List.map_append]
  rfl

/-- Keep the entries that satisfy `p`. -/
def retain (d : OrderedDict κ ν) (p : κ → ν → Bool) : OrderedDict κ ν where
  entries := d.entries.filter fun e => p e.1 e.2
  sorted := d.sorted.sublist (List.filter_sublist.map _)

theorem lookup_filter_key (p : κ → Bool) (es : List (κ × ν)) (k : κ) :
    (es.filter fun e => p e.1).lookup k = if p k then es.lookup k else none := by
  induction es with
  | nil => rw [List.filter_nil, List.lookup_nil, ite_self]
  | cons e es ih =>
    rw [List.filter_cons]
    by_cases hk : k = e.1
    · subst hk
      by_cases hp : p e.1 = true
      · rw [if_pos hp, if_pos hp, lookup_cons, lookup_cons, if_pos rfl, if_pos rfl]
      · rw [if_neg hp, if_neg hp, ih, if_neg hp]
    · rw [lookup_cons, if_neg hk, ← ih]
      split
      · rw [lookup_cons, if_neg hk]
      · rfl

theorem get?_retain_key (d : OrderedDict κ ν) (p : κ → Bool) (k : κ) :
    (d.retain fun key _ => p key).get? k = if p k then d.get? k else none :=
  lookup_filter_key p d.entries k

theorem lookup_eq_none_of_lt {k : κ} {es : List (κ × ν)} (h : ∀ x ∈ es.map Prod.fst, k < x) :
    es.lookup k = none := by
  rw [List.lookup_eq_none_iff]
  intro e he
  rw [bne_iff_ne]
  exact (h e.1 (List.mem_map_of_mem he)).ne

/-- Entries in the order of their keys are determined by what they look up. -/
theorem entries_ext {es fs : List (κ × ν)} (he : (es.map Prod.fst).Pairwise (· < ·))
    (hf : (fs.map Prod.fst).Pairwise (· < ·)) (h : ∀ k, es.lookup k = fs.lookup k) : es = fs := by
  induction es generalizing fs with
  | nil =>
    cases fs with
    | nil => rfl
    | cons f fs =>
      have hk := h f.1
      rw [List.lookup_nil, lookup_cons, if_pos rfl] at hk
      cases hk
  | cons e es ih =>
    cases fs with
    | nil =>
      have hk := h e.1
      rw [List.lookup_nil, lookup_cons, if_pos rfl] at hk
      cases hk
    | cons f fs =>
      rw [List.map_cons, List.pairwise_cons] at he hf
      have hkey : e.1 = f.1 := by
        rcases lt_trichotomy e.1 f.1 with hlt | heq | hgt
        · have hk := h e.1
          rw [lookup_cons, if_pos rfl, lookup_cons, if_neg hlt.ne,
            lookup_eq_none_of_lt fun x hx => hlt.trans (hf.1 x hx)] at hk
          cases hk
        · exact heq
        · have hk := h f.1
          rw [lookup_cons, if_neg hgt.ne, lookup_cons, if_pos rfl,
            lookup_eq_none_of_lt fun x hx => hgt.trans (he.1 x hx)] at hk
          cases hk
      have hvalue := h e.1
      rw [lookup_cons, if_pos rfl, lookup_cons, if_pos hkey, Option.some.injEq] at hvalue
      have hrest : es = fs := by
        refine ih he.2 hf.2 fun k => ?_
        have hk := h k
        rw [lookup_cons, lookup_cons] at hk
        by_cases hke : k = e.1
        · rw [hke, lookup_eq_none_of_lt he.1, lookup_eq_none_of_lt fun x hx => hkey ▸ hf.1 x hx]
        · rwa [if_neg hke, if_neg fun hkf => hke (hkf.trans hkey.symm)] at hk
      rw [hrest, Prod.ext hkey hvalue]

theorem ext_get? {d d' : OrderedDict κ ν} (h : ∀ k, d.get? k = d'.get? k) : d = d' := by
  obtain ⟨es, hes⟩ := d
  obtain ⟨fs, hfs⟩ := d'
  obtain rfl := entries_ext hes hfs h
  rfl

instance [DecidableEq ν] : DecidableEq (OrderedDict κ ν) := fun d d' =>
  decidable_of_iff (d.entries = d'.entries) (by
    obtain ⟨es, hes⟩ := d
    obtain ⟨fs, hfs⟩ := d'
    exact (mk.injEq es hes fs hfs).symm ▸ Iff.rfl)

theorem nodup_keys (d : OrderedDict κ ν) : d.keys.Nodup := d.sorted.imp fun h => h.ne

/-! ### Loops that build a dictionary -/

section
variable {ε α β : Type}

/-- A loop that inserts `f` of each value under its key and stops at the first failure;
`f` is also given the number of the iteration. -/
def collect (f : ℕ → α → Except ε β) : ℕ → List (κ × α) → OrderedDict κ β →
    Except ε (OrderedDict κ β)
  | _, [], d => .ok d
  | i, e :: es, d => do
    let b ← f i e.2
    collect f (i + 1) es (d.insert e.1 b)

theorem lookup_collect {f : ℕ → α → Except ε β} {i : ℕ} {es : List (κ × α)} {d out : OrderedDict κ β}
    (h : collect f i es d = .ok out) (hnodup : (es.map Prod.fst).Nodup) (k : κ) :
    (es.lookup k = none → out.get? k = d.get? k) ∧
      ∀ a, es.lookup k = some a → ∃ j b, f j a = .ok b ∧ out.get? k = some b := by
  induction es generalizing i d with
  | nil =>
    cases h
    refine ⟨fun _ => rfl, fun a ha => ?_⟩
    cases ha
  | cons e es ih =>
    obtain ⟨b, hb, h⟩ := bind_ok h
    rw [List.map_cons, List.nodup_cons] at hnodup
    obtain ⟨hkeep, hnew⟩ := ih h hnodup.2
    rw [lookup_cons]
    by_cases hk : k = e.1
    · rw [if_pos hk]
      refine ⟨fun hnone => ?_, fun a ha => ?_⟩
      · cases hnone
      · cases ha
        have habsent : es.lookup k = none := by
          rw [List.lookup_eq_none_iff]
          intro e' he'
          rw [bne_iff_ne, hk]
          intro heq
          exact hnodup.1 (heq ▸ List.mem_map_of_mem he')
        refine ⟨i, b, hb, ?_⟩
        rw [hkeep habsent, get?_insert, if_pos hk]
    · rw [if_neg hk]
      refine ⟨fun hnone => ?_, hnew⟩
      rw [hkeep hnone, get?_insert, if_neg hk]

/-- The loop over a whole dictionary keeps the keys and maps the values. -/
theorem collect_rel {f : ℕ → α → Except ε β} {i : ℕ} {d : OrderedDict κ α} {out : OrderedDict κ β}
    (h : collect f i d.entries empty = .ok out) (k : κ) :
    Option.Rel (fun a b => ∃ j, f j a = .ok b) (d.get? k) (out.get? k) := by
  obtain ⟨hnone, hsome⟩ := lookup_collect h d.nodup_keys k
  cases hk : d.get? k with
  | none =>
    rw [hnone hk]
    exact .none
  | some a =>
    obtain ⟨j, b, hb, hout⟩ := hsome a hk
    rw [hout]
    exact .some ⟨j, hb⟩

theorem collect_error {f : ℕ → α → Except ε β} {i : ℕ} {es : List (κ × α)} {d : OrderedDict κ β} {e : ε}
    (h : collect f i es d = .error e) : ∃ j a, f j a = .error e := by
  induction es generalizing i d with
  | nil => cases h
  | cons x es ih =>
    rw [collect] at h
    cases hx : f i x.2 with
    | error e' =>
      rw [hx] at h
      cases h
      exact ⟨i, x.2, hx⟩
    | ok b =>
      rw [hx] at h
      exact ih h

theorem collect_succeeds {f : ℕ → α → Except ε β} {i : ℕ} {es : List (κ × α)} {d : OrderedDict κ β}
    (h : ∀ e ∈ es, ∀ j, ∃ b, f j e.2 = .ok b) : ∃ out, collect f i es d = .ok out := by
  induction es generalizing i d with
  | nil => exact ⟨d, rfl⟩
  | cons e es ih =>
    obtain ⟨b, hb⟩ := h e List.mem_cons_self i
    rw [collect, hb]
    exact ih fun e' he' => h e' (List.mem_cons_of_mem e he')

theorem get?_of_mem {d : OrderedDict κ ν} {e : κ × ν} (h : e ∈ d.entries) : d.get? e.1 = some e.2 := by
  obtain ⟨es, hes⟩ := d
  have hlookup : ∀ es : List (κ × ν), (es.map Prod.fst).Pairwise (· < ·) → e ∈ es →
      es.lookup e.1 = some e.2 := by
    intro es
    induction es with
    | nil => exact fun _ hmem => absurd hmem List.not_mem_nil
    | cons x xs ih =>
      intro hsorted hmem
      rw [List.map_cons, List.pairwise_cons] at hsorted
      rw [lookup_cons]
      rcases List.mem_cons.mp hmem with rfl | hmem
      · rw [if_pos rfl]
      · have hlt := hsorted.1 e.1 (List.mem_map_of_mem hmem)
        rw [if_neg hlt.ne', ih hsorted.2 hmem]
  exact hlookup es hes h

theorem mem_of_get? {d : OrderedDict κ ν} {k : κ} {v : ν} (h : d.get? k = some v) : (k, v) ∈ d.entries := by
  obtain ⟨front, back, hsplit, -⟩ := List.lookup_eq_some_iff.mp h
  rw [hsplit]
  exact List.mem_append_right front List.mem_cons_self

end

end OrderedDict

end Jaiba.Lib
