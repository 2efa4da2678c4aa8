import Jaiba.Engine.Interpolation

/-!
# When the variables of a text are resolved

The loop substitutes the first placeholder and looks at the whole text again,
the inserted value included. It gives the text with each placeholder replaced by
its value exactly where these values bring no placeholder in.
-/

namespace Jaiba.Engine.Interpolation
open Jaiba.Lib

variable {env : Variables}

/-- The text with every placeholder, from left to right, replaced by the value of its variable. -/
inductive Substituted (env : Variables) : Text → Text → Prop where
  | plain {text : Text} (h : Substring.find marker text = none) : Substituted env text text
  | placeholder {text before rest name after value out : Text}
      (hfirst : Substring.find marker text = some (before, rest)) (hname : Substring.find ['}'] rest = some (name, after))
      (hvalue : env name = some value) (h : Substituted env after out) : Substituted env text (before ++ value ++ out)

/-- After some replacements of the first placeholder, values included, it is not closed or its
variable is missing. -/
inductive Stuck (env : Variables) : Text → Prop where
  | unclosed {text before rest : Text} (hfirst : Substring.find marker text = some (before, rest))
      (hname : Substring.find ['}'] rest = none) : Stuck env text
  | missing {text before rest name after : Text} (hfirst : Substring.find marker text = some (before, rest))
      (hname : Substring.find ['}'] rest = some (name, after)) (hvalue : env name = none) : Stuck env text
  | next {text before rest name after value : Text} (hfirst : Substring.find marker text = some (before, rest))
      (hname : Substring.find ['}'] rest = some (name, after)) (hvalue : env name = some value)
      (h : Stuck env (before ++ value ++ after)) : Stuck env text

/-! ### One round -/

theorem substituteFirst_next {text before rest name after value : Text}
    (hfirst : Substring.find marker text = some (before, rest)) (hname : Substring.find ['}'] rest = some (name, after))
    (hvalue : env name = some value) : substituteFirst env text = .ok (some (before ++ value ++ after)) := by
  unfold substituteFirst
  rw [hfirst]
  dsimp only
  rw [hname]
  dsimp only
  rw [hvalue]

theorem substituteFirst_unclosed (env : Variables) {text before rest : Text}
    (hfirst : Substring.find marker text = some (before, rest)) (hname : Substring.find ['}'] rest = none) :
    ∃ e, substituteFirst env text = .error e := by
  unfold substituteFirst
  rw [hfirst]
  dsimp only
  rw [hname]
  exact ⟨_, rfl⟩

theorem substituteFirst_missing {text before rest name after : Text}
    (hfirst : Substring.find marker text = some (before, rest)) (hname : Substring.find ['}'] rest = some (name, after))
    (hvalue : env name = none) : ∃ e, substituteFirst env text = .error e := by
  unfold substituteFirst
  rw [hfirst]
  dsimp only
  rw [hname]
  dsimp only
  rw [hvalue]
  exact ⟨_, rfl⟩

theorem substituteFirst_none {text : Text} : substituteFirst env text = .ok none ↔ Substring.find marker text = none := by
  unfold substituteFirst
  cases Substring.find marker text with
  | none => simp
  | some split =>
    obtain ⟨before, rest⟩ := split
    dsimp only
    cases Substring.find ['}'] rest with
    | none => simp
    | some split =>
      obtain ⟨name, after⟩ := split
      dsimp only
      cases env name <;> simp

theorem stuck_of_error {text : Text} {e : FlowError} (h : substituteFirst env text = .error e) : Stuck env text := by
  unfold substituteFirst at h
  cases hfirst : Substring.find marker text with
  | none =>
    rw [hfirst] at h
    cases h
  | some split =>
    obtain ⟨before, rest⟩ := split
    rw [hfirst] at h
    dsimp only at h
    cases hname : Substring.find ['}'] rest with
    | none => exact .unclosed hfirst hname
    | some split =>
      obtain ⟨name, after⟩ := split
      rw [hname] at h
      dsimp only at h
      cases hvalue : env name with
      | none => exact .missing hfirst hname hvalue
      | some value =>
        rw [hvalue] at h
        cases h

theorem next_of_substituteFirst {text next : Text} (h : substituteFirst env text = .ok (some next)) :
    ∃ before rest name after value, Substring.find marker text = some (before, rest) ∧
      Substring.find ['}'] rest = some (name, after) ∧ env name = some value ∧ next = before ++ value ++ after := by
  unfold substituteFirst at h
  cases hfirst : Substring.find marker text with
  | none =>
    rw [hfirst] at h
    cases h
  | some split =>
    obtain ⟨before, rest⟩ := split
    rw [hfirst] at h
    dsimp only at h
    cases hname : Substring.find ['}'] rest with
    | none =>
      rw [hname] at h
      cases h
    | some split =>
      obtain ⟨name, after⟩ := split
      rw [hname] at h
      dsimp only at h
      cases hvalue : env name with
      | none =>
        rw [hvalue] at h
        cases h
      | some value =>
        rw [hvalue] at h
        cases h
        exact ⟨before, rest, name, after, value, rfl, hname, hvalue, rfl⟩

/-! ### The loop -/

/-- Whether it ends, and how, does not depend on the rounds that are left. -/
theorem resolveEnvironment_mono {rounds more : ℕ} {text : Text} {r : Except FlowError Text}
    (h : resolveEnvironment env rounds text = some r) (hle : rounds ≤ more) :
    resolveEnvironment env more text = some r := by
  induction rounds generalizing more text with
  | zero => cases h
  | succ rounds ih =>
    obtain ⟨more, rfl⟩ := Nat.exists_eq_succ_of_ne_zero (show more ≠ 0 by omega)
    rw [resolveEnvironment] at h ⊢
    cases hfirst : substituteFirst env text with
    | error e =>
      rw [hfirst] at h
      exact h
    | ok next =>
      cases next with
      | none =>
        rw [hfirst] at h
        exact h
      | some next =>
        rw [hfirst] at h
        exact ih h (by omega)

theorem resolveEnvironment_unique {rounds rounds' : ℕ} {text : Text} {r r' : Except FlowError Text}
    (h : resolveEnvironment env rounds text = some r) (h' : resolveEnvironment env rounds' text = some r') : r = r' := by
  have hmore := resolveEnvironment_mono h (Nat.le_max_left rounds rounds')
  rw [resolveEnvironment_mono h' (Nat.le_max_right rounds rounds')] at hmore
  exact (Option.some.inj hmore).symm

/-- A text that it gives has no placeholder. -/
theorem find_of_resolved {rounds : ℕ} {text out : Text} (h : resolveEnvironment env rounds text = some (.ok out)) :
    Substring.find marker out = none := by
  induction rounds generalizing text with
  | zero => cases h
  | succ rounds ih =>
    rw [resolveEnvironment] at h
    cases hfirst : substituteFirst env text with
    | error e =>
      rw [hfirst] at h
      cases h
    | ok next =>
      rw [hfirst] at h
      cases next with
      | none =>
        cases h
        exact substituteFirst_none.mp hfirst
      | some next => exact ih h

theorem stuck_iff {text : Text} : Stuck env text ↔ ∃ rounds e, resolveEnvironment env rounds text = some (.error e) := by
  constructor
  · intro h
    induction h with
    | unclosed hfirst hname =>
      obtain ⟨e, he⟩ := substituteFirst_unclosed env hfirst hname
      exact ⟨1, e, by rw [resolveEnvironment, he]⟩
    | missing hfirst hname hvalue =>
      obtain ⟨e, he⟩ := substituteFirst_missing hfirst hname hvalue
      exact ⟨1, e, by rw [resolveEnvironment, he]⟩
    | next hfirst hname hvalue _ ih =>
      obtain ⟨rounds, e, hrounds⟩ := ih
      refine ⟨rounds + 1, e, ?_⟩
      rw [resolveEnvironment, substituteFirst_next hfirst hname hvalue]
      exact hrounds
  · rintro ⟨rounds, e, h⟩
    induction rounds generalizing text with
    | zero => cases h
    | succ rounds ih =>
      rw [resolveEnvironment] at h
      cases hfirst : substituteFirst env text with
      | error e' => exact stuck_of_error hfirst
      | ok next =>
        rw [hfirst] at h
        cases next with
        | none => cases h
        | some next =>
          obtain ⟨before, rest, name, after, value, hmarker, hname, hvalue, rfl⟩ := next_of_substituteFirst hfirst
          exact .next hmarker hname hvalue (ih h)

/-- Behind a text that stays, the loop comes to the substituted text if no placeholder is in it. -/
theorem resolved_of_substituted {text out : Text} (h : Substituted env text out) :
    ∀ done : Text, Substring.find marker (done ++ out) = none →
      ∃ rounds, resolveEnvironment env rounds (done ++ text) = some (.ok (done ++ out)) := by
  induction h with
  | plain hplain =>
    intro done hdone
    refine ⟨1, ?_⟩
    rw [resolveEnvironment, substituteFirst_none.mpr hdone]
  | @placeholder text before rest name after value out hfirst hname hvalue _ ih =>
    intro done hdone
    have hout : done ++ (before ++ value ++ out) = done ++ before ++ value ++ out := by simp
    rw [hout] at hdone ⊢
    obtain ⟨rounds, hrounds⟩ := ih (done ++ before ++ value) hdone
    -- no placeholder begins in what stays before the one that is replaced
    have hbefore : ¬ marker <:+: done ++ before := by
      intro hinside
      refine Substring.find_none_iff.mp hdone (hinside.trans ?_)
      rw [List.append_assoc]
      exact (List.prefix_append _ _).isInfix
    have hsplit := Substring.find_some hfirst
    have hmarker : Substring.find marker (done ++ text) = some (done ++ before, rest) := by
      rw [hsplit, ← List.append_assoc, ← List.append_assoc]
      exact Substring.find_of_fresh (by decide) hbefore rest
    refine ⟨rounds + 1, ?_⟩
    rw [resolveEnvironment, substituteFirst_next hmarker hname hvalue]
    exact hrounds

/-- The loop ends; if it succeeds, its text is the one with every placeholder replaced by its value. -/
def Resolves (env : Variables) (text : Text) : Prop :=
  (∃ rounds r, resolveEnvironment env rounds text = some r) ∧
    ∀ rounds out, resolveEnvironment env rounds text = some (.ok out) → Substituted env text out

/-- `A=${env:A}`. -/
def selfReference : Variables := fun name => if name = ['A'] then some (marker ++ ['A', '}']) else none

end Jaiba.Engine.Interpolation
