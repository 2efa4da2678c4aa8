import Mathlib.Data.List.Forall2

/-!
# Fallible steps

Inversion of a successful computation in `Except`: a bind, and a loop that
stops at the first failure.
-/

namespace Jaiba.Lib

variable {ε α β : Type}

theorem bind_ok {x : Except ε α} {f : α → Except ε β} {b : β} (h : x >>= f = .ok b) :
    ∃ a, x = .ok a ∧ f a = .ok b := by
  cases x with
  | error e => cases h
  | ok a => exact ⟨a, rfl, h⟩

theorem map_ok {x : Except ε α} {f : α → β} {b : β} (h : x.map f = .ok b) : ∃ a, x = .ok a ∧ f a = b := by
  cases x with
  | error e => cases h
  | ok a =>
    cases h
    exact ⟨a, rfl, rfl⟩

theorem ok_of_isOk {x : Except ε α} (h : x.isOk = true) : ∃ a, x = .ok a := by
  cases x with
  | error e => cases h
  | ok a => exact ⟨a, rfl⟩

theorem ok_of_toOption {x : Except ε α} {a : α} (h : x.toOption = some a) : x = .ok a := by
  cases x with
  | error e => cases h
  | ok b => exact congrArg Except.ok (Option.some.inj h)

theorem of_mapError_ok {ε' : Type} {x : Except ε α} {f : ε → ε'} {a : α}
    (h : x.mapError f = .ok a) : x = .ok a := by
  cases x with
  | error e => cases h
  | ok b =>
    cases h
    rfl

/-- `collect::<Result<Vec<_>, _>>`: every item succeeded, in its order. -/
theorem mapM_ok_iff {f : α → Except ε β} {items : List α} {out : List β} :
    items.mapM f = .ok out ↔ List.Forall₂ (fun a b => f a = .ok b) items out := by
  induction items generalizing out with
  | nil =>
    rw [List.mapM_nil, List.forall₂_nil_left_iff]
    constructor
    · intro h
      cases h
      rfl
    · rintro rfl
      rfl
  | cons item items ih =>
    rw [List.mapM_cons]
    constructor
    · intro h
      obtain ⟨b, hb, h⟩ := bind_ok h
      obtain ⟨bs, hbs, h⟩ := bind_ok h
      cases h
      exact .cons hb (ih.mp hbs)
    · intro h
      obtain ⟨b, bs, hb, hbs, rfl⟩ := List.forall₂_cons_left_iff.mp h
      rw [hb, ih.mpr hbs]
      rfl

theorem length_of_mapM_ok {f : α → Except ε β} {items : List α} {out : List β} (h : items.mapM f = .ok out) :
    out.length = items.length := (mapM_ok_iff.mp h).length_eq.symm

theorem exists_of_mapM_ok {f : α → Except ε β} {items : List α} {out : List β} {b : β}
    (h : items.mapM f = .ok out) (hb : b ∈ out) : ∃ a ∈ items, f a = .ok b := by
  have hall := mapM_ok_iff.mp h
  induction hall with
  | nil => exact absurd hb List.not_mem_nil
  | cons hitem hrest ih =>
    rcases List.mem_cons.mp hb with rfl | hb
    · exact ⟨_, List.mem_cons_self, hitem⟩
    · obtain ⟨a, ha, hfa⟩ := ih (mapM_ok_iff.mpr hrest) hb
      exact ⟨a, List.mem_cons_of_mem _ ha, hfa⟩

theorem mem_of_mapM_ok {f : α → Except ε β} {items : List α} {out : List β} {a : α}
    (h : items.mapM f = .ok out) (ha : a ∈ items) : ∃ b ∈ out, f a = .ok b := by
  have hall := mapM_ok_iff.mp h
  induction hall with
  | nil => exact absurd ha List.not_mem_nil
  | cons hitem hrest ih =>
    rcases List.mem_cons.mp ha with rfl | ha
    · exact ⟨_, List.mem_cons_self, hitem⟩
    · obtain ⟨b, hb, hfa⟩ := ih (mapM_ok_iff.mpr hrest) ha
      exact ⟨b, List.mem_cons_of_mem _ hb, hfa⟩

theorem mapM_ok_of_forall {f : α → Except ε β} {items : List α}
    (h : ∀ a ∈ items, ∃ b, f a = .ok b) : ∃ out, items.mapM f = .ok out := by
  induction items with
  | nil => exact ⟨[], rfl⟩
  | cons item items ih =>
    obtain ⟨b, hb⟩ := h item List.mem_cons_self
    obtain ⟨bs, hbs⟩ := ih fun a ha => h a (List.mem_cons_of_mem item ha)
    refine ⟨b :: bs, ?_⟩
    rw [List.mapM_cons, hb, hbs]
    rfl

end Jaiba.Lib
