import Mathlib.Data.List.TakeWhile

/-!
# Regular expressions of a backtracking matcher

`steps` gives the ways to match at a place in the order in which a leftmost-first
matcher prefers them; a rule keeps one part of a match and replaces the rest.
Where a run of a class is followed by a letter outside it, only the whole run is
left of its ways.
-/

namespace Jaiba.Lib

inductive Regex (α : Type) where
  | empty
  | one (p : α → Bool)
  /-- `p*`, greedy -/
  | many (p : α → Bool)
  | seq (a b : Regex α)
  | alt (a b : Regex α)

namespace Regex

variable {α : Type}

/-- `p+`. -/
def plus (p : α → Bool) : Regex α := .seq (.one p) (.many p)

/-- `a?`. -/
def opt (a : Regex α) : Regex α := .alt a .empty

def word (letters : List (α → Bool)) : Regex α := letters.foldr (fun p r => .seq (.one p) r) .empty

/-- The runs of a class, the longest first, with what is left. -/
def runs (p : α → Bool) : List α → List (List α × List α)
  | [] => [([], [])]
  | c :: cs => if p c then (runs p cs).map (fun r => (c :: r.1, r.2)) ++ [([], c :: cs)] else [([], c :: cs)]

/-- The letters that are taken and those that are left, in the order of preference. -/
def steps : Regex α → List α → List (List α × List α)
  | .empty, text => [([], text)]
  | .one _, [] => []
  | .one p, c :: cs => if p c then [([c], cs)] else []
  | .many p, text => runs p text
  | .seq a b, text => (steps a text).flatMap fun r => (steps b r.2).map fun s => (r.1 ++ s.1, s.2)
  | .alt a b, text => steps a text ++ steps b text

/-! ### Runs -/

theorem runs_append {p : α → Bool} {text : List α} {r : List α × List α} (h : r ∈ runs p text) : r.1 ++ r.2 = text := by
  induction text generalizing r with
  | nil =>
    rw [runs, List.mem_singleton] at h
    rw [h]
    rfl
  | cons c cs ih =>
    rw [runs] at h
    split at h
    · rcases List.mem_append.mp h with h | h
      · obtain ⟨s, hs, rfl⟩ := List.mem_map.mp h
        rw [List.cons_append, ih hs]
      · rw [List.mem_singleton.mp h]
        rfl
    · rw [List.mem_singleton.mp h]
      rfl

/-- What is taken and what is left are the text. -/
theorem steps_append {a : Regex α} {text : List α} {r : List α × List α} (h : r ∈ a.steps text) : r.1 ++ r.2 = text := by
  induction a generalizing text r with
  | empty =>
    rw [steps, List.mem_singleton] at h
    rw [h]
    rfl
  | one p =>
    cases text with
    | nil => cases h
    | cons c cs =>
      rw [steps] at h
      split at h
      · rw [List.mem_singleton.mp h]
        rfl
      · cases h
  | many p => exact runs_append h
  | seq a b iha ihb =>
    obtain ⟨s, hs, h⟩ := List.mem_flatMap.mp h
    obtain ⟨t, ht, rfl⟩ := List.mem_map.mp h
    rw [List.append_assoc, ihb ht, iha hs]
  | alt a b iha ihb =>
    rcases List.mem_append.mp h with h | h
    · exact iha h
    · exact ihb h

theorem runs_all {p : α → Bool} {text : List α} {r : List α × List α} (h : r ∈ runs p text) :
    ∀ c ∈ r.1, p c = true := by
  induction text generalizing r with
  | nil =>
    rw [runs, List.mem_singleton] at h
    rw [h]
    exact fun c hc => absurd hc List.not_mem_nil
  | cons d cs ih =>
    rw [runs] at h
    split at h
    next hd =>
      rcases List.mem_append.mp h with h | h
      · obtain ⟨s, hs, rfl⟩ := List.mem_map.mp h
        intro c hc
        rcases List.mem_cons.mp hc with rfl | hc
        · exact hd
        · exact ih hs c hc
      · rw [List.mem_singleton.mp h]
        exact fun c hc => absurd hc List.not_mem_nil
    · rw [List.mem_singleton.mp h]
      exact fun c hc => absurd hc List.not_mem_nil

theorem mem_runs {p : α → Bool} {run rest : List α} (h : ∀ c ∈ run, p c = true) : (run, rest) ∈ runs p (run ++ rest) := by
  induction run with
  | nil =>
    cases rest with
    | nil => exact List.mem_singleton_self _
    | cons c rest =>
      rw [List.nil_append, runs]
      split
      · exact List.mem_append_right _ (List.mem_singleton_self _)
      · exact List.mem_singleton_self _
  | cons d run ih =>
    have htail := ih fun c hc => h c (List.mem_cons_of_mem d hc)
    rw [List.cons_append, runs, if_pos (h d List.mem_cons_self)]
    exact List.mem_append_left _ (List.mem_map.mpr ⟨_, htail, rfl⟩)

/-! ### What the constructors match -/

theorem mem_one {p : α → Bool} {text : List α} {r : List α × List α} :
    r ∈ (Regex.one p).steps text ↔ ∃ c, p c = true ∧ r.1 = [c] ∧ text = c :: r.2 := by
  cases text with
  | nil => simp [steps]
  | cons c cs =>
    rw [steps]
    constructor
    · intro h
      split at h
      next hc =>
        rw [List.mem_singleton.mp h]
        exact ⟨c, hc, rfl, rfl⟩
      · cases h
    · rintro ⟨d, hd, hr, htext⟩
      obtain ⟨rfl, hrest⟩ := List.cons.inj htext
      rw [if_pos hd, List.mem_singleton]
      exact Prod.ext hr hrest.symm

theorem mem_many {p : α → Bool} {text : List α} {r : List α × List α} :
    r ∈ (Regex.many p).steps text ↔ (∀ c ∈ r.1, p c = true) ∧ text = r.1 ++ r.2 := by
  constructor
  · intro h
    exact ⟨runs_all h, (runs_append h).symm⟩
  · rintro ⟨hall, rfl⟩
    exact mem_runs hall

theorem mem_seq {a b : Regex α} {text : List α} {r : List α × List α} :
    r ∈ (Regex.seq a b).steps text ↔ ∃ s ∈ a.steps text, ∃ t ∈ b.steps s.2, r = (s.1 ++ t.1, t.2) := by
  rw [steps]
  simp only [List.mem_flatMap, List.mem_map, eq_comm]

theorem mem_alt {a b : Regex α} {text : List α} {r : List α × List α} :
    r ∈ (Regex.alt a b).steps text ↔ r ∈ a.steps text ∨ r ∈ b.steps text := List.mem_append

theorem mem_plus {p : α → Bool} {text : List α} {r : List α × List α} :
    r ∈ (Regex.plus p).steps text ↔ r.1 ≠ [] ∧ (∀ c ∈ r.1, p c = true) ∧ text = r.1 ++ r.2 := by
  rw [Regex.plus, mem_seq]
  constructor
  · rintro ⟨s, hs, t, ht, rfl⟩
    obtain ⟨c, hc, htaken, rfl⟩ := mem_one.mp hs
    obtain ⟨hall, hrest⟩ := mem_many.mp ht
    rw [htaken, hrest]
    refine ⟨List.cons_ne_nil _ _, fun d hd => ?_, rfl⟩
    rcases List.mem_cons.mp hd with rfl | hd
    · exact hc
    · exact hall d hd
  · obtain ⟨run, rest⟩ := r
    rintro ⟨hne, hall, rfl⟩
    cases run with
    | nil => exact absurd rfl hne
    | cons c run =>
      refine ⟨([c], run ++ rest), mem_one.mpr ⟨c, hall c List.mem_cons_self, rfl, rfl⟩, (run, rest), ?_, rfl⟩
      exact mem_many.mpr ⟨fun d hd => hall d (List.mem_cons_of_mem c hd), rfl⟩

theorem mem_seq_one {p : α → Bool} {b : Regex α} {text : List α} {r : List α × List α} :
    r ∈ (Regex.seq (.one p) b).steps text ↔
      ∃ c rest taken, p c = true ∧ text = c :: rest ∧ (taken, r.2) ∈ b.steps rest ∧ r.1 = c :: taken := by
  rw [mem_seq]
  constructor
  · rintro ⟨s, hs, t, ht, rfl⟩
    obtain ⟨c, hc, htaken, htext⟩ := mem_one.mp hs
    exact ⟨c, s.2, t.1, hc, htext, ht, by rw [htaken]; rfl⟩
  · obtain ⟨taken', rest'⟩ := r
    rintro ⟨c, rest, taken, hc, rfl, ht, rfl⟩
    exact ⟨([c], rest), mem_one.mpr ⟨c, hc, rfl, rfl⟩, (taken, rest'), ht, rfl⟩

theorem mem_seq_many {p : α → Bool} {b : Regex α} {text : List α} {r : List α × List α} :
    r ∈ (Regex.seq (.many p) b).steps text ↔
      ∃ run rest taken, (∀ c ∈ run, p c = true) ∧ text = run ++ rest ∧ (taken, r.2) ∈ b.steps rest ∧
        r.1 = run ++ taken := by
  rw [mem_seq]
  constructor
  · rintro ⟨s, hs, t, ht, rfl⟩
    obtain ⟨hall, htext⟩ := mem_many.mp hs
    exact ⟨s.1, s.2, t.1, hall, htext, ht, rfl⟩
  · obtain ⟨taken', rest'⟩ := r
    rintro ⟨run, rest, taken, hall, rfl, ht, rfl⟩
    exact ⟨(run, rest), mem_many.mpr ⟨hall, rfl⟩, (taken, rest'), ht, rfl⟩

theorem mem_seq_plus {p : α → Bool} {b : Regex α} {text : List α} {r : List α × List α} :
    r ∈ (Regex.seq (.plus p) b).steps text ↔
      ∃ run rest taken, run ≠ [] ∧ (∀ c ∈ run, p c = true) ∧ text = run ++ rest ∧ (taken, r.2) ∈ b.steps rest ∧
        r.1 = run ++ taken := by
  rw [mem_seq]
  constructor
  · rintro ⟨s, hs, t, ht, rfl⟩
    obtain ⟨hne, hall, htext⟩ := mem_plus.mp hs
    exact ⟨s.1, s.2, t.1, hne, hall, htext, ht, rfl⟩
  · obtain ⟨taken', rest'⟩ := r
    rintro ⟨run, rest, taken, hne, hall, rfl, ht, rfl⟩
    exact ⟨(run, rest), mem_plus.mpr ⟨hne, hall, rfl⟩, (taken, rest'), ht, rfl⟩

/-- The expression takes its letters whatever follows them. -/
theorem steps_local {a : Regex α} {taken rest : List α} (h : (taken, rest) ∈ a.steps (taken ++ rest)) (rest' : List α) :
    (taken, rest') ∈ a.steps (taken ++ rest') := by
  induction a generalizing taken rest rest' with
  | empty =>
    rw [steps, List.mem_singleton, Prod.mk.injEq] at h
    rw [h.1]
    exact List.mem_singleton_self _
  | one p =>
    obtain ⟨c, hc, rfl, -⟩ := mem_one.mp h
    exact mem_one.mpr ⟨c, hc, rfl, rfl⟩
  | many p => exact mem_many.mpr ⟨(mem_many.mp h).1, rfl⟩
  | seq a b iha ihb =>
    obtain ⟨⟨x, y⟩, hs, ⟨z, w⟩, ht, heq⟩ := mem_seq.mp h
    obtain ⟨rfl, rfl⟩ := Prod.mk.inj heq
    have hmiddle := steps_append ht
    dsimp only at hmiddle
    subst hmiddle
    rw [List.append_assoc] at hs ⊢
    exact mem_seq.mpr ⟨(x, z ++ rest'), iha hs _, (z, rest'), ihb ht _, rfl⟩
  | alt a b iha ihb =>
    rcases mem_alt.mp h with h | h
    · exact mem_alt.mpr (.inl (iha h rest'))
    · exact mem_alt.mpr (.inr (ihb h rest'))

/-- All classes of the expression lie in `p`. -/
def Within (p : α → Bool) : Regex α → Prop
  | .empty => True
  | .one q => ∀ c, q c = true → p c = true
  | .many q => ∀ c, q c = true → p c = true
  | .seq a b => a.Within p ∧ b.Within p
  | .alt a b => a.Within p ∧ b.Within p

theorem Within.taken {p : α → Bool} {a : Regex α} (ha : a.Within p) {text : List α} {r : List α × List α}
    (h : r ∈ a.steps text) : ∀ c ∈ r.1, p c = true := by
  induction a generalizing text r with
  | empty =>
    rw [steps, List.mem_singleton] at h
    rw [h]
    exact fun c hc => absurd hc List.not_mem_nil
  | one q =>
    obtain ⟨c, hc, htaken, -⟩ := mem_one.mp h
    rw [htaken]
    intro d hd
    rw [List.mem_singleton.mp hd]
    exact ha c hc
  | many q => exact fun c hc => ha c ((mem_many.mp h).1 c hc)
  | seq a b iha ihb =>
    obtain ⟨s, hs, t, ht, rfl⟩ := mem_seq.mp h
    intro c hc
    rcases List.mem_append.mp hc with hc | hc
    · exact iha ha.1 hs c hc
    · exact ihb ha.2 ht c hc
  | alt a b iha ihb =>
    rcases mem_alt.mp h with h | h
    · exact iha ha.1 h
    · exact ihb ha.2 h

theorem head?_runs (p : α → Bool) (text : List α) :
    (runs p text).head? = some (text.takeWhile p, text.dropWhile p) := by
  induction text with
  | nil => rfl
  | cons c cs ih =>
    rw [runs]
    split
    next hc =>
      rw [List.head?_append, List.head?_map, ih, List.takeWhile_cons_of_pos hc, List.dropWhile_cons_of_pos hc]
      rfl
    next hc =>
      rw [List.takeWhile_cons_of_neg hc, List.dropWhile_cons_of_neg hc]
      rfl

/-- The preferred run of a class goes as far as the class does. -/
theorem head?_plus {p : α → Bool} {text : List α} {r : List α × List α} (h : ((Regex.plus p).steps text).head? = some r) :
    ∀ c ∈ r.2.head?, p c = false := by
  cases text with
  | nil => cases h
  | cons c cs =>
    have hsteps : (Regex.plus p).steps (c :: cs) =
        if p c then (runs p cs).map fun s => (c :: s.1, s.2) else [] := by
      rw [Regex.plus, steps, steps]
      split <;> simp [steps]
    rw [hsteps] at h
    split at h
    · rw [List.head?_map, head?_runs] at h
      cases h
      intro d hd
      have hdrop := List.head?_dropWhile_not p cs
      rw [Option.mem_def.mp hd] at hdrop
      exact hdrop
    · cases h

/-! ### Where a run ends -/

/-- A letter that ends a run is met inside the first part of the text or behind it. -/
theorem cut {run rest first second : List α} {d : α} (h : run ++ d :: rest = first ++ second) :
    (∃ more, first = run ++ d :: more ∧ rest = more ++ second) ∨ ∃ more, run = first ++ more ∧ second = more ++ d :: rest := by
  rcases List.append_eq_append_iff.mp h with ⟨more, hfirst, hrest⟩ | ⟨more, hrun, hsecond⟩
  · cases more with
    | nil =>
      refine .inr ⟨[], ?_, ?_⟩
      · rw [hfirst, List.append_nil, List.append_nil]
      · exact hrest.symm
    | cons e more =>
      obtain ⟨rfl, hbehind⟩ := List.cons.inj hrest
      exact .inl ⟨more, hfirst, hbehind⟩
  · exact .inr ⟨more, hrun, hsecond⟩

/-- A run of a class and the letter outside it that ends the run. -/
theorem run_unique {p : α → Bool} {run run' rest rest' : List α} {d d' : α} (hrun : ∀ c ∈ run, p c = true)
    (hrun' : ∀ c ∈ run', p c = true) (hd : p d = false) (hd' : p d' = false)
    (h : run ++ d :: rest = run' ++ d' :: rest') : run = run' ∧ d = d' ∧ rest = rest' := by
  rcases cut h with ⟨more, hrun'', -⟩ | ⟨more, rfl, hrest⟩
  · rw [hrun' d (by rw [hrun'']; simp)] at hd
    cases hd
  · cases more with
    | nil =>
      obtain ⟨rfl, rfl⟩ := List.cons.inj hrest
      exact ⟨List.append_nil _, rfl, rfl⟩
    | cons e more =>
      obtain ⟨rfl, -⟩ := List.cons.inj hrest
      rw [hrun d' (by simp)] at hd'
      cases hd'

/-! ### Replacing -/

/-- A pattern with a part that is kept, and the text that the rest of a match becomes. The pattern may
look at the letter before the place where it starts. -/
structure Rule (α : Type) where
  starts : Option α → List α → Bool
  kept : Regex α
  masked : Regex α
  replacement : List α

namespace Rule

variable (rule : Rule α)

/-- The preferred match at a place: what is kept, what is masked and what follows. -/
def matchAt (before : Option α) (text : List α) : Option (List α × List α × List α) :=
  if rule.starts before text then
    (rule.kept.steps text).findSome? fun r => (rule.masked.steps r.2).head?.map fun s => (r.1, s.1, s.2)
  else none

/-- `replace_all`, with a bound on the matches and letters that are passed. -/
def replaceFrom : ℕ → Option α → List α → List α
  | _, _, [] => []
  | 0, _, text => text
  | fuel + 1, before, c :: cs =>
    match rule.matchAt before (c :: cs) with
    | some (kept, masked, rest) => kept ++ rule.replacement ++ replaceFrom fuel (kept ++ masked).getLast? rest
    | none => c :: replaceFrom fuel (some c) cs

def replaceAll (text : List α) : List α := rule.replaceFrom text.length none text

variable {rule}

/-- A match is a way to take the kept part, and the preferred way to take the masked part behind it. -/
theorem head?_of_matchAt {before : Option α} {text kept masked rest : List α}
    (h : rule.matchAt before text = some (kept, masked, rest)) :
    ∃ middle, (kept, middle) ∈ rule.kept.steps text ∧ (rule.masked.steps middle).head? = some (masked, rest) := by
  rw [matchAt] at h
  split at h
  · obtain ⟨r, hr, hmasked⟩ := List.exists_of_findSome?_eq_some h
    obtain ⟨s, hs, heq⟩ := Option.map_eq_some_iff.mp hmasked
    cases heq
    exact ⟨r.2, hr, hs⟩
  · cases h

theorem mem_of_matchAt {before : Option α} {text kept masked rest : List α}
    (h : rule.matchAt before text = some (kept, masked, rest)) :
    ∃ middle, (kept, middle) ∈ rule.kept.steps text ∧ (masked, rest) ∈ rule.masked.steps middle := by
  obtain ⟨middle, hkept, hmasked⟩ := head?_of_matchAt h
  exact ⟨middle, hkept, List.mem_of_mem_head? hmasked⟩

theorem matchAt_isSome (rule : Rule α) {before : Option α} {text kept middle masked rest : List α}
    (hstarts : rule.starts before text = true) (hkept : (kept, middle) ∈ rule.kept.steps text)
    (hmasked : (masked, rest) ∈ rule.masked.steps middle) : (rule.matchAt before text).isSome := by
  rw [matchAt, if_pos hstarts, List.findSome?_isSome_iff]
  refine ⟨_, hkept, ?_⟩
  rw [Option.isSome_map]
  cases hsteps : rule.masked.steps middle with
  | nil =>
    rw [hsteps] at hmasked
    cases hmasked
  | cons s steps => rfl

theorem matchAt_append {before : Option α} {text kept masked rest : List α}
    (h : rule.matchAt before text = some (kept, masked, rest)) : kept ++ masked ++ rest = text := by
  obtain ⟨middle, hkept, hmasked⟩ := mem_of_matchAt h
  rw [List.append_assoc, steps_append hmasked, steps_append hkept]

/-- A pattern that does not look at the letter before it, and masks something. -/
structure Plain (rule : Rule α) : Prop where
  starts : ∀ before text, rule.starts before text = true
  masks : ∀ text r, r ∈ rule.masked.steps text → r.1 ≠ []

theorem Plain.matchAt_eq (h : rule.Plain) (before before' : Option α) (text : List α) :
    rule.matchAt before text = rule.matchAt before' text := by
  rw [matchAt, matchAt, if_pos (h.starts before text), if_pos (h.starts before' text)]

theorem Plain.rest_lt (h : rule.Plain) {before : Option α} {text kept masked rest : List α}
    (hmatch : rule.matchAt before text = some (kept, masked, rest)) : rest.length < text.length := by
  obtain ⟨middle, -, hmasked⟩ := mem_of_matchAt hmatch
  have hpos := List.length_pos_iff.mpr (h.masks middle _ hmasked)
  rw [← matchAt_append hmatch, List.length_append, List.length_append]
  dsimp only at hpos
  omega

theorem Plain.replaceFrom_eq (h : rule.Plain) {fuel fuel' : ℕ} {before before' : Option α} {text : List α}
    (hfuel : text.length ≤ fuel) (hfuel' : text.length ≤ fuel') :
    rule.replaceFrom fuel before text = rule.replaceFrom fuel' before' text := by
  induction fuel generalizing fuel' before before' text with
  | zero =>
    have hnil : text = [] := List.length_eq_zero_iff.mp (Nat.le_zero.mp hfuel)
    subst hnil
    cases fuel' <;> rfl
  | succ fuel ih =>
    cases text with
    | nil => cases fuel' <;> rfl
    | cons c cs =>
      rw [List.length_cons] at hfuel hfuel'
      obtain ⟨fuel', rfl⟩ := Nat.exists_eq_succ_of_ne_zero (show fuel' ≠ 0 by omega)
      rw [replaceFrom, replaceFrom, h.matchAt_eq before before' (c :: cs)]
      cases hmatch : rule.matchAt before' (c :: cs) with
      | none =>
        dsimp only
        rw [ih (by omega) (show cs.length ≤ fuel' by omega)]
      | some m =>
        obtain ⟨kept, masked, rest⟩ := m
        have hlt := h.rest_lt hmatch
        rw [List.length_cons] at hlt
        dsimp only
        rw [ih (by omega) (show rest.length ≤ fuel' by omega)]

theorem Plain.replaceAll_none (h : rule.Plain) {c : α} {cs : List α} (hmatch : rule.matchAt none (c :: cs) = none) :
    rule.replaceAll (c :: cs) = c :: rule.replaceAll cs := by
  rw [replaceAll, List.length_cons, replaceFrom, hmatch]
  exact congrArg (c :: ·) (h.replaceFrom_eq (Nat.le_refl _) (Nat.le_refl _))

theorem Plain.replaceAll_some (h : rule.Plain) {text kept masked rest : List α}
    (hmatch : rule.matchAt none text = some (kept, masked, rest)) :
    rule.replaceAll text = kept ++ rule.replacement ++ rule.replaceAll rest := by
  have hlt := h.rest_lt hmatch
  cases text with
  | nil => exact absurd hlt (Nat.not_lt_zero _)
  | cons c cs =>
    rw [List.length_cons] at hlt
    rw [replaceAll, List.length_cons, replaceFrom, hmatch]
    exact congrArg (kept ++ rule.replacement ++ ·) (h.replaceFrom_eq (by omega) (Nat.le_refl _))

/-- A pattern that keeps a letter of each match. -/
def Keeps (rule : Rule α) : Prop := ∀ text r, r ∈ rule.kept.steps text → r.1 ≠ []

theorem Keeps.match_head (h : rule.Keeps) {before : Option α} {text kept masked rest : List α}
    (hmatch : rule.matchAt before text = some (kept, masked, rest)) :
    kept ≠ [] ∧ kept.head? = text.head? ∧ rest.length < text.length := by
  obtain ⟨middle, hkept, -⟩ := mem_of_matchAt hmatch
  have hne := h text _ hkept
  dsimp only at hne
  obtain ⟨c, kept, rfl⟩ := List.exists_cons_of_ne_nil hne
  rw [← matchAt_append hmatch]
  refine ⟨List.cons_ne_nil c kept, rfl, ?_⟩
  simp only [List.length_append, List.length_cons]
  omega

theorem Keeps.replaceFrom_fuel (h : rule.Keeps) {fuel fuel' : ℕ} {before : Option α} {text : List α}
    (hfuel : text.length ≤ fuel) (hfuel' : text.length ≤ fuel') :
    rule.replaceFrom fuel before text = rule.replaceFrom fuel' before text := by
  induction fuel generalizing fuel' before text with
  | zero =>
    have hnil : text = [] := List.length_eq_zero_iff.mp (Nat.le_zero.mp hfuel)
    subst hnil
    cases fuel' <;> rfl
  | succ fuel ih =>
    cases text with
    | nil => cases fuel' <;> rfl
    | cons c cs =>
      rw [List.length_cons] at hfuel hfuel'
      obtain ⟨fuel', rfl⟩ := Nat.exists_eq_succ_of_ne_zero (show fuel' ≠ 0 by omega)
      rw [replaceFrom, replaceFrom]
      cases hmatch : rule.matchAt before (c :: cs) with
      | none =>
        dsimp only
        rw [ih (by omega) (show cs.length ≤ fuel' by omega)]
      | some m =>
        obtain ⟨kept, masked, rest⟩ := m
        have hlt := (h.match_head hmatch).2.2
        rw [List.length_cons] at hlt
        dsimp only
        rw [ih (by omega) (show rest.length ≤ fuel' by omega)]

theorem replaceFrom_before {fuel : ℕ} {before before' : Option α} {text : List α}
    (h : rule.starts before text = rule.starts before' text) :
    rule.replaceFrom fuel before text = rule.replaceFrom fuel before' text := by
  cases text with
  | nil => cases fuel <;> rfl
  | cons c cs =>
    cases fuel with
    | zero => rfl
    | succ fuel => rw [replaceFrom, replaceFrom, matchAt, matchAt, h]

/-- The first letter of a text stays. -/
theorem Keeps.head?_replaceAll (h : rule.Keeps) (text : List α) : (rule.replaceAll text).head? = text.head? := by
  cases text with
  | nil => rfl
  | cons c cs =>
    rw [replaceAll, List.length_cons, replaceFrom]
    cases hmatch : rule.matchAt none (c :: cs) with
    | none => rfl
    | some m =>
      obtain ⟨kept, masked, rest⟩ := m
      obtain ⟨hne, hhead, -⟩ := h.match_head hmatch
      obtain ⟨d, kept, rfl⟩ := List.exists_cons_of_ne_nil hne
      exact hhead

theorem Keeps.replaceFrom_passed (h : rule.Keeps) {w rest : List α} {fuel : ℕ} {before : Option α}
    (hfuel : (w ++ rest).length ≤ fuel)
    (hnone : ∀ u c z, w = u ++ c :: z → ∀ before, rule.matchAt before (c :: z ++ rest) = none) :
    rule.replaceFrom fuel before (w ++ rest) = w ++ rule.replaceFrom fuel (w.getLast?.or before) rest := by
  induction w generalizing fuel before with
  | nil => rfl
  | cons c w ih =>
    rw [List.cons_append, List.length_cons] at hfuel
    obtain ⟨fuel, rfl⟩ := Nat.exists_eq_succ_of_ne_zero (show fuel ≠ 0 by omega)
    have htail : rule.replaceFrom fuel (some c) (w ++ rest) =
        w ++ rule.replaceFrom fuel (w.getLast?.or (some c)) rest :=
      ih (by omega) fun u d z hw => hnone (c :: u) d z (by rw [hw, List.cons_append])
    have hlast : (c :: w).getLast?.or before = w.getLast?.or (some c) := by
      cases w <;> simp [List.getLast?_cons]
    have hstep := hnone [] c w rfl before
    rw [List.cons_append] at hstep
    rw [List.cons_append, replaceFrom, hstep]
    dsimp only
    rw [htail, hlast, List.cons_append]
    rw [List.length_append] at hfuel
    rw [h.replaceFrom_fuel (show rest.length ≤ fuel by omega) (show rest.length ≤ fuel + 1 by omega)]

/-- A text in which no match begins up to `rest`. -/
theorem Keeps.replaceAll_passed (h : rule.Keeps) {w rest : List α}
    (hnone : ∀ u c z, w = u ++ c :: z → ∀ before, rule.matchAt before (c :: z ++ rest) = none)
    (hlast : rule.starts w.getLast? rest = rule.starts none rest) :
    rule.replaceAll (w ++ rest) = w ++ rule.replaceAll rest := by
  rw [replaceAll, h.replaceFrom_passed (Nat.le_refl _) hnone, Option.or_none, replaceFrom_before hlast, replaceAll,
    h.replaceFrom_fuel (show rest.length ≤ (w ++ rest).length by rw [List.length_append]; omega) (Nat.le_refl _)]

end Rule

end Regex

end Jaiba.Lib
