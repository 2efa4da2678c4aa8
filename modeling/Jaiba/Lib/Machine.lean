import Mathlib.Data.List.Basic
import Mathlib.Logic.Relation

/-!
# Guarded machines

A machine is a step function: `step s a` is the state after action `a`, or
`none` where `a` is not enabled in `s`. One definition serves replay of a
concrete trace (`exec`), reachability under a condition on the steps (`Reach`)
and progress by a decreasing measure (`Path`).
-/

namespace Jaiba.Lib

/-- A labelled transition system given by its guarded step function. -/
structure Machine (σ α : Type) where
  step : σ → α → Option σ

namespace Machine

variable {σ α : Type} (M : Machine σ α)

/-- Replay of a list of actions; `none` as soon as one is not enabled. -/
def exec : σ → List α → Option σ
  | s, [] => some s
  | s, a :: as => (M.step s a).bind fun t => exec t as

/-- States reached from `s₀` by steps that all meet the condition `ok`, a
predicate of the state before the step and of the action. -/
inductive Reach (ok : σ → α → Prop) (s₀ : σ) : σ → Prop where
  | refl : Reach ok s₀ s₀
  | step {s t : σ} {a : α} : Reach ok s₀ s → ok s a → M.step s a = some t → Reach ok s₀ t

/-- Reachability with no condition on the steps. -/
abbrev Reachable (s₀ : σ) : σ → Prop := M.Reach (fun _ _ => True) s₀

variable {M}

theorem Reach.trans {ok : σ → α → Prop} {s₀ s t : σ} (h : M.Reach ok s₀ s)
    (h' : M.Reach ok s t) : M.Reach ok s₀ t := by
  induction h' with
  | refl => exact h
  | step _ hok hs ih => exact .step ih hok hs

theorem Reach.mono {ok ok' : σ → α → Prop} (himp : ∀ s a, ok s a → ok' s a) {s₀ s : σ}
    (h : M.Reach ok s₀ s) : M.Reach ok' s₀ s := by
  induction h with
  | refl => exact .refl
  | step _ hok hs ih => exact .step ih (himp _ _ hok) hs

/-- The invariant rule: what holds at the start and is kept by every step that
meets the condition holds in every state reached. -/
theorem Reach.invariant {ok : σ → α → Prop} {I : σ → Prop} {s₀ s : σ}
    (h : M.Reach ok s₀ s) (h0 : I s₀)
    (hstep : ∀ s a t, I s → ok s a → M.step s a = some t → I t) : I s := by
  induction h with
  | refl => exact h0
  | step _ hok hs ih => exact hstep _ _ _ ih hok hs

/-- A replayed trace is a run, under any condition its actions meet everywhere. -/
theorem Reach.of_exec {ok : σ → α → Prop} {s t : σ} (as : List α) (h : M.exec s as = some t)
    (hok : ∀ a ∈ as, ∀ u, ok u a) : M.Reach ok s t := by
  induction as generalizing s with
  | nil =>
    cases Option.some.inj h
    exact .refl
  | cons a as ih =>
    obtain ⟨u, hu, ht⟩ := Option.bind_eq_some_iff.mp h
    have hlast := ih ht fun b hb => hok b (List.mem_cons_of_mem a hb)
    exact Reach.trans (.step .refl (hok a List.mem_cons_self s) hu) hlast

/-- The machine that makes only the steps `guard` allows. -/
def guarded (M : Machine σ α) (guard : σ → α → Bool) : Machine σ α where
  step s a := if guard s a then M.step s a else none

/-- A replayed trace is a run under the condition that its guard checks. -/
theorem Reach.of_guarded {ok : σ → α → Prop} {guard : σ → α → Bool}
    (hguard : ∀ s a, guard s a = true → ok s a) {s t : σ} (as : List α)
    (h : (M.guarded guard).exec s as = some t) : M.Reach ok s t := by
  induction as generalizing s with
  | nil =>
    cases Option.some.inj h
    exact .refl
  | cons a as ih =>
    obtain ⟨u, hu, ht⟩ := Option.bind_eq_some_iff.mp h
    rw [guarded] at hu
    dsimp only at hu
    split at hu
    next hg => exact Reach.trans (.step .refl (hguard s a hg) hu) (ih ht)
    · cases hu

/-- Runs with the list of what their steps put out. -/
inductive Logged {β : Type} (M : Machine σ α) (ok : σ → α → Prop) (out : σ → α → σ → List β)
    (s₀ : σ) : σ → List β → Prop where
  | refl : Logged M ok out s₀ s₀ []
  | step {s t : σ} {a : α} {log : List β} : Logged M ok out s₀ s log → ok s a →
      M.step s a = some t → Logged M ok out s₀ t (log ++ out s a t)

/-- The invariant rule for a state and the log that leads to it. -/
theorem Logged.invariant {β : Type} {ok : σ → α → Prop} {out : σ → α → σ → List β}
    {I : σ → List β → Prop} {s₀ s : σ} {log : List β} (h : M.Logged ok out s₀ s log)
    (h0 : I s₀ [])
    (hstep : ∀ s a t log, I s log → ok s a → M.step s a = some t → I t (log ++ out s a t)) :
    I s log := by
  induction h with
  | refl => exact h0
  | step _ hok hs ih => exact hstep _ _ _ _ ih hok hs

/-- What a replay puts out, up to the first action that is not enabled. -/
def record {β : Type} (M : Machine σ α) (out : σ → α → σ → List β) : σ → List α → List β
  | _, [] => []
  | s, a :: as =>
    match M.step s a with
    | none => []
    | some t => out s a t ++ record M out t as

theorem Logged.of_exec {β : Type} {out : σ → α → σ → List β} {s₀ s t : σ} {log : List β}
    (as : List α) (h₀ : M.Logged (fun _ _ => True) out s₀ s log) (h : M.exec s as = some t) :
    M.Logged (fun _ _ => True) out s₀ t (log ++ M.record out s as) := by
  induction as generalizing s log with
  | nil =>
    cases Option.some.inj h
    rwa [record, List.append_nil]
  | cons a as ih =>
    obtain ⟨u, hu, ht⟩ := Option.bind_eq_some_iff.mp h
    have hlast := ih (h₀.step trivial hu) ht
    simpa only [record, hu, List.append_assoc] using hlast

/-- Steps restricted to a set of actions: the continuations a scheduler may pick. -/
def Path (M : Machine σ α) (allowed : α → Prop) (s t : σ) : Prop :=
  M.Reach (fun _ a => allowed a) s t

theorem Path.refl {allowed : α → Prop} (s : σ) : M.Path allowed s s := Reach.refl

theorem Path.trans {allowed : α → Prop} {s t u : σ} (h : M.Path allowed s t)
    (h' : M.Path allowed t u) : M.Path allowed s u := Reach.trans h h'

theorem Path.one {allowed : α → Prop} {s t : σ} (a : α) (ha : allowed a)
    (h : M.step s a = some t) : M.Path allowed s t := .step .refl ha h

/-- The progress rule: when every state of `I` outside the goal has a path to
a state of `I` with a smaller measure, every state of `I` has a path to the
goal. -/
theorem Path.progress {allowed : α → Prop} {I goal : σ → Prop} (measure : σ → ℕ)
    (hstep : ∀ s, I s → ¬ goal s →
      ∃ t, M.Path allowed s t ∧ (goal t ∨ I t ∧ measure t < measure s))
    (s : σ) (hs : I s) : ∃ t, M.Path allowed s t ∧ goal t := by
  generalize hn : measure s = n
  induction n using Nat.strongRecOn generalizing s with
  | ind n ih =>
    by_cases hg : goal s
    · exact ⟨s, .refl s, hg⟩
    · obtain ⟨t, hp, hgoal | ⟨ht, hlt⟩⟩ := hstep s hs hg
      · exact ⟨t, hp, hgoal⟩
      · obtain ⟨u, hp', hu⟩ := ih _ (hn ▸ hlt) t ht rfl
        exact ⟨u, hp.trans hp', hu⟩

end Machine

end Jaiba.Lib
