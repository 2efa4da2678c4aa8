import Mathlib.Data.List.Nodup

/-!
# Keyed tables and numbered logs

A `Table` is a list of rows whose keys are pairwise distinct (a SQL table with
a primary key): `INSERT`, `UPDATE … WHERE` and `DELETE … WHERE` keep the key
constraint, and each is specified by what a lookup returns afterwards. A
`Log` is an append-only list numbered by an increasing counter (a table with
an `AUTOINCREMENT` id).
-/

namespace Jaiba.Lib

/-- Rows with pairwise distinct keys. -/
structure Table (κ ρ : Type) (key : ρ → κ) where
  rows : List ρ
  primaryKey : (rows.map key).Nodup

namespace Table

variable {κ ρ : Type} {key : ρ → κ}

def empty : Table κ ρ key := ⟨[], List.nodup_nil⟩

/-- `UPDATE … SET f WHERE p`, with a `SET` that leaves the key alone. -/
def updateWhere (t : Table κ ρ key) (p : ρ → Bool) (f : ρ → ρ)
    (hf : ∀ r, key (f r) = key r) : Table κ ρ key where
  rows := t.rows.map fun r => if p r then f r else r
  primaryKey := by
    have hk : (t.rows.map fun r => if p r then f r else r).map key = t.rows.map key := by
      rw [List.map_map]
      refine List.map_congr_left fun r _ => ?_
      simp only [Function.comp_apply]
      split
      · exact hf r
      · rfl
    exact hk ▸ t.primaryKey

/-- Number of rows an `UPDATE … WHERE p` or `DELETE … WHERE p` touches. -/
def affected (t : Table κ ρ key) (p : ρ → Bool) : ℕ := t.rows.countP p

/-- `DELETE … WHERE p`. -/
def deleteWhere (t : Table κ ρ key) (p : ρ → Bool) : Table κ ρ key where
  rows := t.rows.filter fun r => !p r
  primaryKey := t.primaryKey.sublist (List.filter_sublist.map key)

variable [DecidableEq κ]

/-- The row with a given key. -/
def find? (t : Table κ ρ key) (k : κ) : Option ρ := t.rows.find? fun r => key r = k

/-- `INSERT`, refused when the key is taken. -/
def insert (t : Table κ ρ key) (r : ρ) : Option (Table κ ρ key) :=
  if h : key r ∈ t.rows.map key then none
  else some ⟨t.rows ++ [r], by
    rw [List.map_append, List.map_cons, List.map_nil]
    exact List.nodup_append.mpr ⟨t.primaryKey, List.nodup_singleton _, fun a ha b hb hab =>
      h (by rw [← List.mem_singleton.mp hb, ← hab]; exact ha)⟩⟩

theorem find?_key {t : Table κ ρ key} {k : κ} {r : ρ} (h : t.find? k = some r) : key r = k := by
  simpa using List.find?_some h

theorem find?_mem {t : Table κ ρ key} {k : κ} {r : ρ} (h : t.find? k = some r) :
    r ∈ t.rows := List.mem_of_find?_eq_some h

theorem find?_none_iff {t : Table κ ρ key} {k : κ} :
    t.find? k = none ↔ k ∉ t.rows.map key := by
  simp only [find?, List.find?_eq_none, decide_eq_true_eq, List.mem_map, not_exists, not_and]

private theorem find?_of_mem_nodup (l : List ρ) (hn : (l.map key).Nodup) {r : ρ} (h : r ∈ l) :
    l.find? (fun x => key x = key r) = some r := by
  induction l with
  | nil => cases h
  | cons x l ih =>
    rw [List.map_cons, List.nodup_cons] at hn
    rcases List.mem_cons.mp h with rfl | h
    · simp
    · have hne : key x ≠ key r := fun he => hn.1 (he ▸ List.mem_map_of_mem h)
      rw [List.find?_cons_of_neg (by simpa using hne)]
      exact ih hn.2 h

theorem find?_of_mem {t : Table κ ρ key} {r : ρ} (h : r ∈ t.rows) :
    t.find? (key r) = some r := find?_of_mem_nodup t.rows t.primaryKey h

theorem find?_updateWhere (t : Table κ ρ key) (p : ρ → Bool) (f : ρ → ρ)
    (hf : ∀ r, key (f r) = key r) (k : κ) :
    (t.updateWhere p f hf).find? k = (t.find? k).map fun r => if p r then f r else r := by
  simp only [find?, updateWhere, List.find?_map]
  congr 1
  refine congrArg (t.rows.find? ·) (funext fun r => ?_)
  simp only [Function.comp_apply]
  split
  · rw [hf]
  · rfl

theorem find?_deleteWhere (t : Table κ ρ key) (p : ρ → Bool) (k : κ) :
    (t.deleteWhere p).find? k = (t.find? k).filter fun r => !p r := by
  cases hf : t.find? k with
  | none =>
    have hnone := find?_none_iff.mp hf
    refine find?_none_iff.mpr fun hk => hnone ?_
    obtain ⟨r, hr, rfl⟩ := List.mem_map.mp hk
    exact List.mem_map_of_mem (List.mem_filter.mp hr).1
  | some r =>
    have hk := find?_key hf
    by_cases hp : p r = true
    · have hgone : (t.deleteWhere p).find? k = none := by
        refine find?_none_iff.mpr fun hmem => ?_
        obtain ⟨x, hx, hxk⟩ := List.mem_map.mp hmem
        obtain ⟨hx, hpx⟩ := List.mem_filter.mp hx
        have hsame : t.find? k = some x := hxk ▸ find?_of_mem hx
        rw [hf] at hsame
        cases Option.some.inj hsame
        simp [hp] at hpx
      rw [hgone, Option.filter_some]
      simp [hp]
    · have hkeep : r ∈ (t.deleteWhere p).rows :=
        List.mem_filter.mpr ⟨find?_mem hf, by simpa using hp⟩
      rw [← hk, find?_of_mem hkeep, Option.filter_some]
      simp [hp]

theorem insert_eq_none_iff {t : Table κ ρ key} {r : ρ} :
    t.insert r = none ↔ (t.find? (key r)).isSome := by
  unfold insert
  split
  next h =>
    have hne : t.find? (key r) ≠ none := fun hn => find?_none_iff.mp hn h
    simpa using Option.isSome_iff_ne_none.mpr hne
  next h =>
    have hn : t.find? (key r) = none := find?_none_iff.mpr h
    simp [hn]

theorem insert_rows {t u : Table κ ρ key} {r : ρ} (h : t.insert r = some u) :
    u.rows = t.rows ++ [r] := by
  unfold insert at h
  split at h
  · cases h
  · cases Option.some.inj h
    rfl

theorem find?_insert {t u : Table κ ρ key} {r : ρ} (h : t.insert r = some u) (k : κ) :
    u.find? k = if k = key r then some r else t.find? k := by
  have hnone : t.find? (key r) = none := by
    have hne : t.insert r ≠ none := by simp [h]
    rw [Ne, insert_eq_none_iff] at hne
    simpa using hne
  simp only [find?, insert_rows h, List.find?_append]
  by_cases hk : k = key r
  · subst hk
    simp only [find?] at hnone
    simp [hnone]
  · have hk' : key r ≠ k := fun he => hk he.symm
    simp [hk, hk']

/-- A `WHERE` that names one key touches at most one row. -/
theorem affected_key (t : Table κ ρ key) (k : κ) (q : ρ → Bool) :
    t.affected (fun r => key r = k && q r) = if (t.find? k).any q then 1 else 0 := by
  have hcount : ∀ l : List ρ, (l.map key).Nodup →
      l.countP (fun r => key r = k && q r) =
        if (l.find? fun r => key r = k).any q then 1 else 0 := by
    intro l
    induction l with
    | nil => intro _; rfl
    | cons x l ih =>
      intro hn
      rw [List.map_cons, List.nodup_cons] at hn
      by_cases hx : key x = k
      · have hrest : l.countP (fun r => key r = k && q r) = 0 := by
          refine List.countP_eq_zero.mpr fun r hr hp => hn.1 ?_
          have hrk : key r = k := by
            have := (Bool.and_eq_true _ _ ▸ hp).1
            simpa using this
          rw [hx, ← hrk]
          exact List.mem_map_of_mem hr
        rw [List.countP_cons, hrest, List.find?_cons_of_pos (by simpa using hx)]
        simp [hx]
      · rw [List.countP_cons, List.find?_cons_of_neg (by simpa using hx), ih hn.2]
        simp [hx]
  exact hcount t.rows t.primaryKey

end Table

/-- An append-only list whose entries carry the value of an increasing counter. -/
structure Log (ε : Type) where
  entries : List (ℕ × ε)
  next : ℕ
  ordered : (entries.map Prod.fst).Pairwise (· < ·)
  below : ∀ e ∈ entries, e.1 < next

namespace Log

variable {ε : Type}

def empty : Log ε := ⟨[], 1, List.Pairwise.nil, fun _ h => by cases h⟩

/-- `INSERT` with the next id. -/
def append (l : Log ε) (e : ε) : Log ε where
  entries := l.entries ++ [(l.next, e)]
  next := l.next + 1
  ordered := by
    rw [List.map_append, List.map_cons, List.map_nil]
    refine List.pairwise_append.mpr ⟨l.ordered, List.pairwise_singleton _ _, fun a ha b hb => ?_⟩
    obtain ⟨x, hx, rfl⟩ := List.mem_map.mp ha
    rw [List.mem_singleton.mp hb]
    exact l.below x hx
  below := by
    intro x hx
    rcases List.mem_append.mp hx with hx | hx
    · exact Nat.lt_succ_of_lt (l.below x hx)
    · rw [List.mem_singleton.mp hx]
      exact Nat.lt_succ_self _

/-- `DELETE … WHERE p`; the counter is never reused. -/
def deleteWhere (l : Log ε) (p : ε → Bool) : Log ε where
  entries := l.entries.filter fun e => !p e.2
  next := l.next
  ordered := l.ordered.sublist (List.filter_sublist.map _)
  below := fun x hx => l.below x (List.mem_filter.mp hx).1

/-- The entries in the order of their ids. -/
def values (l : Log ε) : List ε := l.entries.map Prod.snd

@[simp] theorem values_append (l : Log ε) (e : ε) : (l.append e).values = l.values ++ [e] := by
  simp [values, append]

end Log

end Jaiba.Lib
