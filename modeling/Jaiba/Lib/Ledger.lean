import Mathlib.Algebra.Order.Ring.Int
import Mathlib.Data.List.Basic

/-!
# Ledgers

An amount of which part is free and the rest is held by the entries of a list.
An entry that takes or gives back changes the free part by what its own holding
changes, so the sum stays the same.
-/

namespace Jaiba.Lib

variable {α : Type}

/-- What is free and what the entries hold add up to the total. -/
def Balanced (holding : α → ℕ) (free total : ℕ) (entries : List α) : Prop :=
  free + (entries.map holding).sum = total

theorem sum_map_set (holding : α → ℕ) {entries : List α} {i : ℕ} {x : α}
    (h : entries[i]? = some x) (y : α) :
    ((entries.set i y).map holding).sum + holding x = (entries.map holding).sum + holding y := by
  induction entries generalizing i with
  | nil => cases h
  | cons z entries ih =>
    cases i with
    | zero =>
      cases Option.some.inj h
      simp only [List.set_cons_zero, List.map_cons, List.sum_cons]
      omega
    | succ i =>
      have hrest := ih h
      simp only [List.set_cons_succ, List.map_cons, List.sum_cons]
      omega

theorem sum_map_eraseIdx (holding : α → ℕ) {entries : List α} {i : ℕ} {x : α}
    (h : entries[i]? = some x) :
    ((entries.eraseIdx i).map holding).sum + holding x = (entries.map holding).sum := by
  induction entries generalizing i with
  | nil => cases h
  | cons z entries ih =>
    cases i with
    | zero =>
      cases Option.some.inj h
      simp only [List.eraseIdx_cons_zero, List.map_cons, List.sum_cons]
      omega
    | succ i =>
      have hrest := ih h
      simp only [List.eraseIdx_cons_succ, List.map_cons, List.sum_cons]
      omega

/-- A weight that is under the holdings adds up to no more than they do. -/
theorem sum_map_le {weight holding : α → ℕ} {scale : ℕ} {entries : List α}
    (h : ∀ x ∈ entries, weight x ≤ holding x * scale) :
    (entries.map weight).sum ≤ (entries.map holding).sum * scale := by
  induction entries with
  | nil => exact Nat.zero_le _
  | cons x entries ih =>
    have hx := h x List.mem_cons_self
    have hrest := ih fun y hy => h y (List.mem_cons_of_mem x hy)
    simp only [List.map_cons, List.sum_cons, Nat.add_mul]
    omega

theorem sum_map_eq_zero {weight : α → ℕ} {entries : List α} (h : ∀ x ∈ entries, weight x = 0) :
    (entries.map weight).sum = 0 := by
  have hle : (entries.map weight).sum ≤ (entries.map weight).sum * 0 :=
    sum_map_le fun x hx => (h x hx).le.trans (Nat.zero_le _)
  omega

/-- Where the holdings add up to at most one, the weight is that of one entry. -/
theorem sum_map_le_of_sum_le_one {weight holding : α → ℕ} {bound : ℕ} {entries : List α}
    (hone : (entries.map holding).sum ≤ 1) (hzero : ∀ x ∈ entries, holding x = 0 → weight x = 0)
    (hbound : ∀ x ∈ entries, weight x ≤ bound) : (entries.map weight).sum ≤ bound := by
  induction entries with
  | nil => exact Nat.zero_le _
  | cons x entries ih =>
    simp only [List.map_cons, List.sum_cons] at hone ⊢
    have hx := hbound x List.mem_cons_self
    by_cases hhold : holding x = 0
    · have hrest := ih (by omega) (fun y hy => hzero y (List.mem_cons_of_mem x hy))
        fun y hy => hbound y (List.mem_cons_of_mem x hy)
      have hweight := hzero x List.mem_cons_self hhold
      omega
    · have hnone : (entries.map weight).sum ≤ (entries.map holding).sum * bound := by
        refine sum_map_le fun y hy => ?_
        by_cases hy0 : holding y = 0
        · rw [hzero y (List.mem_cons_of_mem x hy) hy0]
          exact Nat.zero_le _
        · exact (hbound y (List.mem_cons_of_mem x hy)).trans
            (Nat.le_mul_of_pos_left bound (Nat.pos_of_ne_zero hy0))
      have hsum : (entries.map holding).sum = 0 := by omega
      rw [hsum, Nat.zero_mul] at hnone
      omega

namespace Balanced

variable {holding : α → ℕ} {free free' total i : ℕ} {entries : List α} {x y : α}

/-- An entry takes from what is free, or gives back to it. -/
theorem set (h : Balanced holding free total entries) (hi : entries[i]? = some x)
    (hfree : free' + holding y = free + holding x) :
    Balanced holding free' total (entries.set i y) := by
  have hsum := sum_map_set holding hi y
  unfold Balanced at h ⊢
  omega

theorem append (h : Balanced holding free total entries) (hfree : free' + holding y = free) :
    Balanced holding free' total (entries ++ [y]) := by
  unfold Balanced at h ⊢
  rw [List.map_append, List.sum_append, List.map_singleton, List.sum_singleton]
  omega

theorem sum_le (h : Balanced holding free total entries) : (entries.map holding).sum ≤ total := by
  unfold Balanced at h
  omega

/-- An entry that holds nothing may be left out. -/
theorem eraseIdx (h : Balanced holding free total entries) (hi : entries[i]? = some x)
    (hx : holding x = 0) : Balanced holding free total (entries.eraseIdx i) := by
  have hsum := sum_map_eraseIdx holding hi
  unfold Balanced at h ⊢
  omega

end Balanced

end Jaiba.Lib
