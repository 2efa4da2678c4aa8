import Mathlib.Algebra.BigOperators.Group.List.Basic
import Mathlib.Algebra.Order.Ring.Int
import Mathlib.Data.List.Perm.Basic
import Jaiba.Lib.Dict

/-!
# Weights of dictionaries

The sum of a weight over the entries of a dictionary: with weight one it is the
number of entries. What an insertion adds and what an extraction takes out.
-/

namespace Jaiba.Lib.Dict

variable {κ ν : Type} [DecidableEq κ] {f : κ × ν → ℕ} {d : Dict κ ν} {k : κ} {v : ν}

def weight (f : κ × ν → ℕ) (d : Dict κ ν) : ℕ := (d.rows.map f).sum

omit [DecidableEq κ] in
theorem weight_one (d : Dict κ ν) : weight (fun _ => 1) d = d.rows.length := by
  rw [weight, List.map_const', List.sum_replicate, nsmul_eq_mul, Nat.cast_id, Nat.mul_one]

omit [DecidableEq κ] in
theorem sum_filter_add (f : κ × ν → ℕ) (p : κ × ν → Bool) (l : List (κ × ν)) :
    ((l.filter p).map f).sum + ((l.filter fun e => !p e).map f).sum = (l.map f).sum := by
  rw [← List.sum_append, ← List.map_append]
  exact ((List.filter_append_perm p l).map f).sum_eq

/-- Members of a list with distinct keys, and the rest of it. -/
theorem sum_split (f : κ × ν → ℕ) {l taken : List (κ × ν)} (hl : (l.map Prod.fst).Nodup)
    (htaken : (taken.map Prod.fst).Nodup) (hmem : ∀ e ∈ taken, e ∈ l) :
    (l.map f).sum = (taken.map f).sum +
      ((l.filter fun e => e.1 ∉ taken.map Prod.fst).map f).sum := by
  have hsame : (l.filter fun e => e.1 ∈ taken.map Prod.fst).Perm taken := by
    refine (List.perm_ext_iff_of_nodup (hl.of_map.filter _) htaken.of_map).mpr fun e => ?_
    rw [List.mem_filter, decide_eq_true_eq]
    constructor
    · rintro ⟨he, hk⟩
      obtain ⟨e', he', hkey⟩ := List.mem_map.mp hk
      rwa [List.inj_on_of_nodup_map hl he (hmem e' he') hkey.symm]
    · exact fun he => ⟨hmem e he, List.mem_map_of_mem he⟩
  have hsum := sum_filter_add f (fun e => decide (e.1 ∈ taken.map Prod.fst)) l
  rw [(hsame.map f).sum_eq] at hsum
  rw [← hsum]
  congr 4
  funext e
  rw [decide_not]

theorem rows_eraseAll (d : Dict κ ν) (ks : List κ) :
    (eraseAll d ks).rows = d.rows.filter fun e => e.1 ∉ ks := by
  induction ks generalizing d with
  | nil =>
    refine (List.filter_eq_self.mpr fun e _ => ?_).symm
    simp
  | cons k ks ih =>
    have hstep : eraseAll d (k :: ks) = eraseAll (erase d k) ks := rfl
    have hone : (erase d k).rows = d.rows.filter fun e => !decide (e.1 = k) := rfl
    rw [hstep, ih, hone, List.filter_filter]
    refine List.filter_congr fun e _ => ?_
    by_cases hk : e.1 = k <;> simp [hk]

theorem weight_insert (f : κ × ν → ℕ) (d : Dict κ ν) (k : κ) (v : ν) :
    weight f (insert d k v) = weight f (erase d k) + f (k, v) := by
  have hrows : (insert d k v).rows = (erase d k).rows ++ [(k, v)] := rfl
  rw [weight, hrows, List.map_append, List.sum_append, List.map_singleton, List.sum_singleton,
    weight]

theorem weight_eraseAll (f : κ × ν → ℕ) {taken : List (κ × ν)}
    (htaken : (taken.map Prod.fst).Nodup) (hmem : ∀ e ∈ taken, get? d e.1 = some e.2) :
    weight f d = (taken.map f).sum + weight f (eraseAll d (taken.map Prod.fst)) := by
  rw [weight, sum_split f d.primaryKey htaken fun e he => mem_rows_iff.mpr (hmem e he), weight,
    rows_eraseAll]

theorem weight_erase (f : κ × ν → ℕ) (h : get? d k = some v) :
    weight f d = f (k, v) + weight f (erase d k) := by
  have hsplit : weight f d = ([(k, v)].map f).sum + weight f (eraseAll d ([(k, v)].map Prod.fst)) :=
    weight_eraseAll f (List.nodup_singleton _) fun e he => by
      rw [List.mem_singleton.mp he]
      exact h
  rwa [List.map_singleton, List.sum_singleton] at hsplit

omit [DecidableEq κ] in
theorem weight_deleteWhere_le (f : κ × ν → ℕ) (d : Dict κ ν) (p : κ × ν → Bool) :
    weight f (d.deleteWhere p) ≤ weight f d := by
  have hsum := sum_filter_add f p d.rows
  have hrows : weight f (d.deleteWhere p) = ((d.rows.filter fun e => !p e).map f).sum := rfl
  have hall : weight f d = (d.rows.map f).sum := rfl
  omega

omit [DecidableEq κ] in
theorem weight_retain_le (f : κ × ν → ℕ) (d : Dict κ ν) (p : κ → ν → Bool) :
    weight f (retain d p) ≤ weight f d := weight_deleteWhere_le f d _

theorem weight_erase_le (f : κ × ν → ℕ) (d : Dict κ ν) (k : κ) : weight f (erase d k) ≤ weight f d :=
  weight_deleteWhere_le f d _

theorem weight_insert_le (f : κ × ν → ℕ) (d : Dict κ ν) (k : κ) (v : ν) :
    weight f (insert d k v) ≤ weight f d + f (k, v) := by
  rw [weight_insert]
  exact Nat.add_le_add_right (weight_erase_le f d k) _

/-- Another value of the same weight under a key. -/
theorem weight_update (f : κ × ν → ℕ) {v' : ν} (h : get? d k = some v) (hf : f (k, v') = f (k, v)) :
    weight f (insert d k v') = weight f d := by
  rw [weight_insert, weight_erase f h, hf, Nat.add_comm]

end Jaiba.Lib.Dict
