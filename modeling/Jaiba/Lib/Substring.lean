import Mathlib.Data.List.Infix

/-!
# The first occurrence of a pattern

`find` splits a text at the first occurrence of a pattern. A pattern whose first
letter is not met in it again has no overlapping occurrences.
-/

namespace Jaiba.Lib.Substring

variable {α : Type} [DecidableEq α]

/-- What stands before and after the first occurrence. -/
def find (pattern : List α) : List α → Option (List α × List α)
  | [] => if pattern.isEmpty then some ([], []) else none
  | c :: cs =>
    if pattern.isPrefixOf (c :: cs) then some ([], (c :: cs).drop pattern.length)
    else (find pattern cs).map fun r => (c :: r.1, r.2)

/-- Every occurrence replaced, from left to right; the number counts letters of one still to be passed. -/
def replaceFrom (pattern replacement : List α) : ℕ → List α → List α
  | _, [] => []
  | skip + 1, _ :: cs => replaceFrom pattern replacement skip cs
  | 0, c :: cs =>
    if pattern.isPrefixOf (c :: cs) then
      replacement ++ replaceFrom pattern replacement (pattern.length - 1) cs
    else c :: replaceFrom pattern replacement 0 cs

/-- `str::replace`, of a pattern that is not empty. -/
def replace (pattern replacement text : List α) : List α := replaceFrom pattern replacement 0 text

def contains (pattern text : List α) : Bool := (find pattern text).isSome

theorem find_some {pattern text before after : List α} (h : find pattern text = some (before, after)) :
    text = before ++ pattern ++ after := by
  induction text generalizing before with
  | nil =>
    rw [find] at h
    split at h
    next hempty =>
      cases h
      rw [List.isEmpty_iff.mp hempty]
      rfl
    · cases h
  | cons c cs ih =>
    rw [find] at h
    split at h
    next hfront =>
      obtain ⟨rest, hrest⟩ := List.isPrefixOf_iff_prefix.mp hfront
      rw [← hrest, List.drop_left] at h
      cases h
      exact hrest.symm
    · obtain ⟨r, hr, heq⟩ := Option.map_eq_some_iff.mp h
      cases heq
      rw [List.cons_append, List.cons_append, ← ih hr]

theorem find_none_iff {pattern text : List α} : find pattern text = none ↔ ¬ pattern <:+: text := by
  induction text with
  | nil =>
    rw [find, List.infix_nil, ← List.isEmpty_iff]
    split <;> simp_all
  | cons c cs ih =>
    rw [find, List.infix_cons_iff]
    split
    next hfront => simp [List.isPrefixOf_iff_prefix.mp hfront]
    next hfront =>
      rw [Option.map_eq_none_iff, ih]
      have hnot : ¬ pattern <+: c :: cs := fun h => hfront (List.isPrefixOf_iff_prefix.mpr h)
      tauto

theorem contains_iff {pattern text : List α} : contains pattern text = true ↔ pattern <:+: text := by
  rw [contains, Option.isSome_iff_ne_none, Ne, find_none_iff, not_not]

omit [DecidableEq α] in
/-- A pattern is not begun before the first place where it stands, if it begins with a letter of its own. -/
theorem not_prefix_of_fresh {first : α} {tail before : List α} (hfresh : first ∉ tail) (hne : before ≠ [])
    (hbefore : ¬ first :: tail <:+: before) (after : List α) : ¬ first :: tail <+: before ++ first :: tail ++ after := by
  intro h
  rw [List.append_assoc] at h
  rcases List.prefix_or_prefix_of_prefix h (List.prefix_append before _) with hshort | ⟨rest, hrest⟩
  · exact hbefore hshort.isInfix
  · rw [← hrest, List.prefix_append_right_inj] at h
    cases rest with
    | nil =>
      rw [List.append_nil] at hrest
      exact hbefore (hrest ▸ List.infix_rfl)
    | cons x rest =>
      cases before with
      | nil => exact hne rfl
      | cons y before =>
        rw [List.cons_append, List.cons_append, List.cons_prefix_cons] at h
        rw [List.cons_append, List.cons.injEq] at hrest
        refine hfresh ?_
        rw [← hrest.2, ← hrest.1, ← h.1]
        exact List.mem_append_right before List.mem_cons_self

theorem find_of_fresh {first : α} {tail before : List α} (hfresh : first ∉ tail)
    (hbefore : ¬ first :: tail <:+: before) (after : List α) :
    find (first :: tail) (before ++ first :: tail ++ after) = some (before, after) := by
  induction before with
  | nil =>
    rw [List.nil_append, List.cons_append, find, if_pos]
    · rw [← List.cons_append, List.drop_left]
    · rw [← List.cons_append, List.isPrefixOf_iff_prefix]
      exact List.prefix_append _ after
  | cons c before ih =>
    have hnot := not_prefix_of_fresh hfresh (List.cons_ne_nil c before) hbefore after
    rw [List.cons_append, List.cons_append] at hnot ⊢
    rw [find, if_neg (fun h => hnot (List.isPrefixOf_iff_prefix.mp h)), ih]
    · rfl
    · intro h
      exact hbefore (h.trans (List.suffix_cons c before).isInfix)

theorem replaceFrom_skip (pattern replacement passed rest : List α) :
    replaceFrom pattern replacement passed.length (passed ++ rest) = replaceFrom pattern replacement 0 rest := by
  induction passed with
  | nil => rfl
  | cons c passed ih => exact ih

theorem replace_pattern {pattern : List α} (hne : pattern ≠ []) (replacement rest : List α) :
    replace pattern replacement (pattern ++ rest) = replacement ++ replace pattern replacement rest := by
  cases pattern with
  | nil => exact absurd rfl hne
  | cons c pattern =>
    have hfront : (c :: pattern).isPrefixOf (c :: (pattern ++ rest)) = true :=
      List.isPrefixOf_iff_prefix.mpr ⟨rest, rfl⟩
    have hskip := replaceFrom_skip (c :: pattern) replacement pattern rest
    rw [replace, List.cons_append, replaceFrom, if_pos hfront, List.length_cons, Nat.add_sub_cancel, hskip]
    rfl

theorem replace_letter {pattern : List α} {c : α} {rest : List α} (h : ¬ pattern <+: c :: rest)
    (replacement : List α) : replace pattern replacement (c :: rest) = c :: replace pattern replacement rest := by
  rw [replace, replaceFrom, if_neg (fun hfront => h (List.isPrefixOf_iff_prefix.mp hfront))]
  rfl

end Jaiba.Lib.Substring
