import Mathlib.Data.List.Basic

/-!
# Batches cut on the way

A list is cut from left to right: a batch is closed before the item that would
overfill it. `full` says when a nonempty batch takes no further item.
-/

namespace Jaiba.Lib

variable {α : Type} (full : List α → α → Bool)

/-- The batches of the open one and of the items after it. -/
def cutFrom : List α → List α → List (List α)
  | current, [] => if current.isEmpty then [] else [current]
  | current, x :: xs =>
    if !current.isEmpty && full current x then current :: cutFrom [x] xs
    else cutFrom (current ++ [x]) xs

def cut (items : List α) : List (List α) := cutFrom full [] items

variable {full}

/-- No item is lost, moved or repeated. -/
theorem cutFrom_flatten (current items : List α) : (cutFrom full current items).flatten = current ++ items := by
  induction items generalizing current with
  | nil =>
    rw [cutFrom]
    split
    next h => rw [List.isEmpty_iff.mp h, List.flatten_nil, List.append_nil]
    · rw [List.flatten_cons, List.flatten_nil]
  | cons x items ih =>
    rw [cutFrom]
    split
    · rw [List.flatten_cons, ih]
      rfl
    · rw [ih, List.append_assoc]
      rfl

theorem cut_flatten (items : List α) : (cut full items).flatten = items := cutFrom_flatten [] items

theorem cutFrom_ne_nil {current : List α} (h : current ≠ []) (items : List α) :
    cutFrom full current items ≠ [] := by
  intro hnil
  have hflatten := @cutFrom_flatten _ full current items
  rw [hnil, List.flatten_nil] at hflatten
  exact h (List.append_eq_nil_iff.mp hflatten.symm).1

/-- What holds of a batch of one item and is kept by every item that a batch takes holds of
every batch. -/
theorem cutFrom_forall {P : List α → Prop} (hone : ∀ x, P [x])
    (hgrow : ∀ current x, current ≠ [] → P current → full current x = false → P (current ++ [x]))
    {current : List α} (hcurrent : current ≠ [] → P current) {items : List α} :
    ∀ batch ∈ cutFrom full current items, P batch := by
  induction items generalizing current with
  | nil =>
    intro batch hbatch
    rw [cutFrom] at hbatch
    split at hbatch
    · cases hbatch
    next hne =>
      rw [List.mem_singleton.mp hbatch]
      exact hcurrent fun h => hne (List.isEmpty_iff.mpr h)
  | cons x items ih =>
    intro batch hbatch
    rw [cutFrom] at hbatch
    split at hbatch
    next hclosed =>
      have hne : current ≠ [] := by
        rintro rfl
        cases hclosed
      rcases List.mem_cons.mp hbatch with rfl | hbatch
      · exact hcurrent hne
      · exact ih (fun _ => hone x) batch hbatch
    next hopen =>
      refine ih (fun _ => ?_) batch hbatch
      by_cases hempty : current = []
      · rw [hempty]
        exact hone x
      · refine hgrow current x hempty (hcurrent hempty) ?_
        cases hfull : full current x with
        | false => rfl
        | true =>
          refine absurd ?_ hopen
          rw [hfull, Bool.and_true, List.isEmpty_eq_false_iff.mpr hempty]
          rfl

theorem cut_forall {P : List α → Prop} (hone : ∀ x, P [x])
    (hgrow : ∀ current x, current ≠ [] → P current → full current x = false → P (current ++ [x]))
    {items batch : List α} (h : batch ∈ cut full items) : P batch :=
  cutFrom_forall hone hgrow (fun h => absurd rfl h) batch h

theorem ne_nil_of_mem_cut {items batch : List α} (h : batch ∈ cut full items) : batch ≠ [] :=
  cut_forall (P := fun batch => batch ≠ []) (fun x => List.cons_ne_nil x [])
    (fun current x _ _ _ => List.append_ne_nil_of_right_ne_nil current (List.cons_ne_nil x [])) h

/-- Items that never fill a batch stay together. -/
theorem cutFrom_together {current items : List α}
    (h : ∀ before x after, items = before ++ x :: after → full (current ++ before) x = false)
    (hne : current ++ items ≠ []) : cutFrom full current items = [current ++ items] := by
  induction items generalizing current with
  | nil =>
    rw [List.append_nil] at hne ⊢
    rw [cutFrom, if_neg fun hempty => hne (List.isEmpty_iff.mp hempty)]
  | cons x items ih =>
    have hx := h [] x items rfl
    rw [List.append_nil] at hx
    rw [cutFrom, hx, Bool.and_false, if_neg Bool.false_ne_true, ih]
    · rw [List.append_assoc]
      rfl
    · intro before y after hitems
      have hy := h (x :: before) y after (by rw [hitems, List.cons_append])
      rwa [List.append_assoc]
    · exact List.append_ne_nil_of_left_ne_nil
        (List.append_ne_nil_of_right_ne_nil current (List.cons_ne_nil x [])) items

/-! ### Positions -/

/-- Each batch with the position of its first item. -/
def located : ℕ → List (List α) → List (ℕ × List α)
  | _, [] => []
  | start, batch :: rest => (start, batch) :: located (start + batch.length) rest

theorem located_batches (start : ℕ) (batches : List (List α)) :
    (located start batches).map Prod.snd = batches := by
  induction batches generalizing start with
  | nil => rfl
  | cons batch rest ih => rw [located, List.map_cons, ih]

/-- An item stands in the list where its batch begins plus its place in the batch. -/
theorem located_item {start : ℕ} {batches : List (List α)} {first : ℕ} {batch : List α}
    (h : (first, batch) ∈ located start batches) {i : ℕ} {x : α} (hx : batch[i]? = some x) :
    start ≤ first ∧ batches.flatten[first - start + i]? = some x := by
  induction batches generalizing start with
  | nil => cases h
  | cons head rest ih =>
    rw [List.flatten_cons]
    rcases List.mem_cons.mp h with heq | hmem
    · cases heq
      refine ⟨Nat.le_refl _, ?_⟩
      have hlt : i < batch.length := (List.getElem?_eq_some_iff.mp hx).1
      rw [Nat.sub_self, Nat.zero_add, List.getElem?_append_left hlt]
      exact hx
    · obtain ⟨hle, hitem⟩ := ih hmem
      refine ⟨by omega, ?_⟩
      have hplace : first - start + i - head.length = first - (start + head.length) + i := by omega
      rw [List.getElem?_append_right (by omega), hplace]
      exact hitem

end Jaiba.Lib
