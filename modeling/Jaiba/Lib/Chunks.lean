import Mathlib.Data.List.Basic
import Jaiba.Lib.Except

/-!
# Chunks of a list

`chunks n xs` cuts a list into pieces of `n`, the last one being shorter where
the length is no multiple. A loop over the pieces that handles each piece item by
item is the loop over the items.
-/

namespace Jaiba.Lib

variable {α β ε σ : Type}

/-- At most `fuel` pieces. -/
def chunksFrom (n : ℕ) : ℕ → List α → List (List α)
  | 0, _ => []
  | fuel + 1, xs => if xs.isEmpty then [] else xs.take n :: chunksFrom n fuel (xs.drop n)

/-- `slice::chunks`, for `0 < n`. -/
def chunks (n : ℕ) (xs : List α) : List (List α) := chunksFrom n xs.length xs

theorem chunksFrom_flatten {n fuel : ℕ} (hn : 0 < n) {xs : List α} (h : xs.length ≤ fuel) :
    (chunksFrom n fuel xs).flatten = xs := by
  induction fuel generalizing xs with
  | zero =>
    have hnil : xs = [] := List.length_eq_zero_iff.mp (by omega)
    rw [hnil]
    rfl
  | succ fuel ih =>
    rw [chunksFrom]
    split
    next hempty => rw [List.isEmpty_iff.mp hempty, List.flatten_nil]
    next hne =>
      have hpos : 0 < xs.length := List.length_pos_iff.mpr fun hnil => hne (List.isEmpty_iff.mpr hnil)
      have hrest : (xs.drop n).length ≤ fuel := by
        rw [List.length_drop]
        omega
      rw [List.flatten_cons, ih hrest, List.take_append_drop]

theorem chunks_flatten {n : ℕ} (hn : 0 < n) (xs : List α) : (chunks n xs).flatten = xs :=
  chunksFrom_flatten hn (Nat.le_refl _)

theorem chunksFrom_fuel {n fuel fuel' : ℕ} (hn : 0 < n) {xs : List α} (h : xs.length ≤ fuel)
    (h' : xs.length ≤ fuel') : chunksFrom n fuel xs = chunksFrom n fuel' xs := by
  induction fuel generalizing xs fuel' with
  | zero =>
    have hnil : xs = [] := List.length_eq_zero_iff.mp (by omega)
    subst hnil
    cases fuel' <;> rfl
  | succ fuel ih =>
    cases fuel' with
    | zero =>
      have hnil : xs = [] := List.length_eq_zero_iff.mp (by omega)
      subst hnil
      rfl
    | succ fuel' =>
      rw [chunksFrom, chunksFrom]
      split
      · rfl
      next hne =>
        have hpos : 0 < xs.length := List.length_pos_iff.mpr fun hnil => hne (List.isEmpty_iff.mpr hnil)
        rw [@ih fuel']
        · rw [List.length_drop]
          omega
        · rw [List.length_drop]
          omega

/-- The first piece and the pieces of the rest. -/
theorem chunks_of_ne_nil {n : ℕ} (hn : 0 < n) {xs : List α} (h : xs ≠ []) :
    chunks n xs = xs.take n :: chunks n (xs.drop n) := by
  obtain ⟨x, xs, rfl⟩ := List.exists_cons_of_ne_nil h
  rw [chunks, List.length_cons, chunksFrom, if_neg (by simp), chunks]
  congr 1
  refine chunksFrom_fuel hn ?_ (Nat.le_refl _)
  rw [List.length_drop, List.length_cons]
  omega

theorem length_of_mem_chunks {n : ℕ} {xs chunk : List α} (h : chunk ∈ chunks n xs) : chunk.length ≤ n := by
  have hfrom : ∀ fuel (xs : List α), chunk ∈ chunksFrom n fuel xs → chunk.length ≤ n := by
    intro fuel
    induction fuel with
    | zero =>
      intro xs h
      cases h
    | succ fuel ih =>
      intro xs h
      rw [chunksFrom] at h
      split at h
      · cases h
      · rcases List.mem_cons.mp h with rfl | h
        · exact List.length_take_le n xs
        · exact ih (xs.drop n) h
  exact hfrom xs.length xs h

theorem ne_nil_of_mem_chunks {n : ℕ} (hn : 0 < n) {xs chunk : List α} (h : chunk ∈ chunks n xs) :
    chunk ≠ [] := by
  have hfrom : ∀ fuel (xs : List α), chunk ∈ chunksFrom n fuel xs → chunk ≠ [] := by
    intro fuel
    induction fuel with
    | zero =>
      intro xs h
      cases h
    | succ fuel ih =>
      intro xs h
      rw [chunksFrom] at h
      split at h
      · cases h
      next hne =>
        rcases List.mem_cons.mp h with rfl | h
        · intro hnil
          rcases List.take_eq_nil_iff.mp hnil with hzero | hxs
          · omega
          · exact hne (List.isEmpty_iff.mpr hxs)
        · exact ih (xs.drop n) h
  exact hfrom xs.length xs h

/-- The first piece of a nonempty list is nonempty. -/
theorem chunks_head {n : ℕ} (hn : 0 < n) {xs : List α} (hxs : xs ≠ []) :
    ∃ chunk rest, chunks n xs = chunk :: rest ∧ chunk ≠ [] := by
  obtain ⟨x, xs, rfl⟩ := List.exists_cons_of_ne_nil hxs
  refine ⟨(x :: xs).take n, chunksFrom n xs.length ((x :: xs).drop n), rfl, ?_⟩
  obtain ⟨k, rfl⟩ := Nat.exists_eq_succ_of_ne_zero (Nat.pos_iff_ne_zero.mp hn)
  exact List.cons_ne_nil x (xs.take k)

/-- Pieces of related lists are related, item by item. -/
theorem chunks_forall₂ {r : α → β → Prop} {n : ℕ} {xs : List α} {ys : List β} (h : List.Forall₂ r xs ys) :
    List.Forall₂ (List.Forall₂ r) (chunks n xs) (chunks n ys) := by
  have hfrom : ∀ fuel (xs : List α) (ys : List β), List.Forall₂ r xs ys →
      List.Forall₂ (List.Forall₂ r) (chunksFrom n fuel xs) (chunksFrom n fuel ys) := by
    intro fuel
    induction fuel with
    | zero => exact fun _ _ _ => .nil
    | succ fuel ih =>
      intro xs ys h
      rw [chunksFrom, chunksFrom]
      have hempty : xs.isEmpty = ys.isEmpty := by
        cases h <;> rfl
      rw [hempty]
      split
      · exact .nil
      · exact .cons (List.forall₂_take n h) (ih _ _ (List.forall₂_drop n h))
  rw [chunks, chunks, h.length_eq]
  exact hfrom _ xs ys h

end Jaiba.Lib
