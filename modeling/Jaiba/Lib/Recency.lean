import Mathlib.Data.Finset.Card
import Mathlib.Data.Finset.Image

/-!
# Recency

The `n` most recently used values of a history, and a window of `n` values that
forgets the value that entered first.  They agree as long as the value that is
forgotten is the one that was not used for the longest time.
-/

namespace Jaiba.Lib.Recency

variable {α β : Type} [DecidableEq α] [DecidableEq β] {n : ℕ} {history : List α} {x y k : α}

/-- The values used since the last use of `x`. -/
def since (history : List α) (x : α) : Finset α :=
  (history.reverse.takeWhile fun y => y ≠ x).toFinset

/-- One of the `n` values used last. -/
def Recent (n : ℕ) (history : List α) (x : α) : Prop := x ∈ history ∧ (since history x).card < n

instance (n : ℕ) (history : List α) (x : α) : Decidable (Recent n history x) :=
  inferInstanceAs (Decidable (_ ∧ _))

theorem since_concat (history : List α) (k x : α) :
    since (history ++ [k]) x = if k = x then ∅ else insert k (since history x) := by
  rw [since, List.reverse_append, List.reverse_singleton, List.singleton_append, List.takeWhile_cons]
  by_cases h : k = x
  · simp [h]
  · simp [h, since]

theorem not_mem_since (history : List α) (x : α) : x ∉ since history x := by
  induction history using List.reverseRecOn with
  | nil => exact Finset.notMem_empty x
  | append_singleton history k ih =>
    rw [since_concat]
    split_ifs with hk
    · exact Finset.notMem_empty x
    · rw [Finset.mem_insert, not_or]
      exact ⟨Ne.symm hk, ih⟩

theorem mem_of_mem_since (h : y ∈ since history x) : y ∈ history := by
  have := (List.takeWhile_prefix _).subset (List.mem_toFinset.mp h)
  exact List.mem_reverse.mp this

/-- Of two values, one was used after the other. -/
theorem mem_since_or (hx : x ∈ history) (hy : y ∈ history) (hne : x ≠ y) :
    y ∈ since history x ∨ x ∈ since history y := by
  induction history using List.reverseRecOn with
  | nil => cases hx
  | append_singleton history k ih =>
    rw [since_concat, since_concat]
    by_cases hkx : k = x
    · subst hkx
      rw [if_neg hne]
      exact .inr (Finset.mem_insert_self _ _)
    · by_cases hky : k = y
      · subst hky
        rw [if_neg hkx]
        exact .inl (Finset.mem_insert_self _ _)
      · have hx' : x ∈ history := by simpa [Ne.symm hkx] using hx
        have hy' : y ∈ history := by simpa [Ne.symm hky] using hy
        rw [if_neg hkx, if_neg hky]
        exact (ih hx' hy').imp (Finset.mem_insert_of_mem ·) (Finset.mem_insert_of_mem ·)

theorem since_subset (h : y ∈ since history x) : since history y ⊆ since history x := by
  induction history using List.reverseRecOn with
  | nil => cases h
  | append_singleton history k ih =>
    rw [since_concat] at h ⊢
    rw [since_concat]
    by_cases hkx : k = x
    · rw [if_pos hkx] at h
      cases h
    · rw [if_neg hkx] at h ⊢
      by_cases hky : k = y
      · rw [if_pos hky]
        exact Finset.empty_subset _
      · rw [if_neg hky]
        have hy : y ∈ since history x := (Finset.mem_insert.mp h).resolve_left (Ne.symm hky)
        exact Finset.insert_subset_insert _ (ih hy)

theorem card_since_lt (h : y ∈ since history x) : (since history y).card < (since history x).card :=
  Finset.card_lt_card (Finset.ssubset_iff_subset_ne.mpr ⟨since_subset h, fun heq =>
    not_mem_since history y (heq ▸ h)⟩)

/-! ### One more use -/

theorem recent_concat_self (history : List α) (k : α) (hn : 0 < n) : Recent n (history ++ [k]) k := by
  refine ⟨List.mem_append_right _ List.mem_cons_self, ?_⟩
  rwa [since_concat, if_pos rfl]

theorem recent_concat_iff (hne : x ≠ k) :
    Recent n (history ++ [k]) x ↔ x ∈ history ∧ (insert k (since history x)).card < n := by
  rw [Recent, since_concat, if_neg (Ne.symm hne), List.mem_append, List.mem_singleton, or_iff_left hne]

/-- Using a recent value changes nothing. -/
theorem recent_concat_of_recent (hk : Recent n history k) :
    Recent n (history ++ [k]) x ↔ Recent n history x := by
  by_cases hne : x = k
  · subst hne
    have hn : 0 < n := Nat.lt_of_le_of_lt (Nat.zero_le _) hk.2
    exact ⟨fun _ => hk, fun _ => recent_concat_self history x hn⟩
  · rw [recent_concat_iff hne, Recent]
    refine and_congr_right fun hx => ?_
    by_cases hmem : k ∈ since history x
    · rw [Finset.insert_eq_of_mem hmem]
    · have hlater := (mem_since_or hx hk.1 hne).resolve_left hmem
      have hcard := card_since_lt hlater
      have hlt := hk.2
      rw [Finset.card_insert_of_notMem hmem]
      omega

/-- A value that is not recent takes the place of the one that was used before all others. -/
theorem recent_concat_of_not_recent (hk : ¬ Recent n history k) (hne : x ≠ k) :
    Recent n (history ++ [k]) x ↔ Recent n history x ∧ (since history x).card + 1 < n := by
  rw [recent_concat_iff hne, Recent]
  by_cases hmem : k ∈ since history x
  · have hcard := card_since_lt hmem
    have hlarge : n ≤ (since history k).card := by
      by_contra hlt
      exact hk ⟨mem_of_mem_since hmem, Nat.not_le.mp hlt⟩
    rw [Finset.insert_eq_of_mem hmem]
    constructor
    · rintro ⟨-, h⟩
      omega
    · rintro ⟨-, h⟩
      omega
  · rw [Finset.card_insert_of_notMem hmem]
    constructor
    · rintro ⟨hx, h⟩
      exact ⟨⟨hx, by omega⟩, h⟩
    · rintro ⟨⟨hx, -⟩, h⟩
      exact ⟨hx, h⟩

/-! ### A window in the order of entry -/

/-- A new value enters at the end, and pushes out what is too many at the front. -/
def enter (n : ℕ) (order : List α) (k : α) : List α :=
  if k ∈ order then order else (order ++ [k]).drop (order.length + 1 - n)

def entered (n : ℕ) (history : List α) : List α := history.foldl (enter n) []

theorem entered_concat (history : List α) (k : α) :
    entered n (history ++ [k]) = enter n (entered n history) k := List.foldl_concat ..

theorem length_entered (history : List α) : (entered n history).length ≤ n := by
  induction history using List.reverseRecOn with
  | nil => exact Nat.zero_le n
  | append_singleton history k ih =>
    rw [entered_concat, enter]
    split_ifs
    · exact ih
    · rw [List.length_drop, List.length_append, List.length_singleton]
      omega

theorem nodup_entered (history : List α) : (entered n history).Nodup := by
  induction history using List.reverseRecOn with
  | nil => exact List.nodup_nil
  | append_singleton history k ih =>
    rw [entered_concat, enter]
    split_ifs with hk
    · exact ih
    · refine List.Nodup.sublist (List.drop_sublist _ _) ?_
      rw [← List.concat_eq_append]
      exact ih.concat hk

theorem mem_history_of_entered (h : x ∈ entered n history) : x ∈ history := by
  induction history using List.reverseRecOn with
  | nil => cases h
  | append_singleton history k ih =>
    rw [entered_concat, enter] at h
    split_ifs at h with hk
    · exact List.mem_append_left _ (ih h)
    · rcases List.mem_append.mp (List.mem_of_mem_drop h) with h | h
      · exact List.mem_append_left _ (ih h)
      · exact List.mem_append_right _ h

/-- The window has the values used last. -/
def Agrees (n : ℕ) (history : List α) : Prop := ∀ x, x ∈ entered n history ↔ Recent n history x

/-- In a full window, the others were all used after the one that entered first. -/
def FirstUnused (n : ℕ) (history : List α) : Prop :=
  (entered n history).length = n → ∀ oldest ∈ (entered n history).head?, ∀ x ∈ entered n history,
    x ≠ oldest → x ∈ since history oldest

theorem Agrees.since_subset (h : Agrees n history) (hx : x ∈ entered n history) :
    since history x ⊆ (entered n history).toFinset.erase x := by
  intro y hy
  have hcard := card_since_lt hy
  have hrecent := ((h x).mp hx).2
  rw [Finset.mem_erase, List.mem_toFinset, h y]
  refine ⟨?_, mem_of_mem_since hy, by omega⟩
  rintro rfl
  exact not_mem_since history y hy

theorem Agrees.card_since (h : Agrees n history) (hx : x ∈ entered n history) :
    (since history x).card + 1 ≤ (entered n history).length := by
  have hcard := Finset.card_le_card (h.since_subset hx)
  rw [Finset.card_erase_of_mem (List.mem_toFinset.mpr hx),
    List.toFinset_card_of_nodup (nodup_entered history)] at hcard
  have hpos := List.length_pos_of_mem hx
  omega

theorem agrees_nil (n : ℕ) : Agrees n ([] : List α) := by
  intro x
  constructor
  · intro h
    cases h
  · intro h
    cases h.1

theorem mem_entered_concat_of_lt (hk : k ∉ entered n history) (hlt : (entered n history).length < n) :
    x ∈ entered n (history ++ [k]) ↔ x ∈ entered n history ∨ x = k := by
  have hzero : (entered n history).length + 1 - n = 0 := by omega
  rw [entered_concat, enter, if_neg hk, hzero, List.drop_zero, List.mem_append, List.mem_singleton]

theorem entered_concat_of_full {oldest : α} {rest : List α} (hk : k ∉ entered n history)
    (hfull : (entered n history).length = n) (horder : entered n history = oldest :: rest) :
    entered n (history ++ [k]) = rest ++ [k] := by
  have hone : (entered n history).length + 1 - n = 1 := by omega
  rw [entered_concat, enter, if_neg hk, hone, horder]
  rfl

/-- A new value leaves a window that is not full with the values used last. -/
theorem Agrees.concat_of_lt (h : Agrees n history) (hk : k ∉ entered n history)
    (hlt : (entered n history).length < n) : Agrees n (history ++ [k]) := by
  intro x
  rw [mem_entered_concat_of_lt hk hlt]
  by_cases hne : x = k
  · subst hne
    exact ⟨fun _ => recent_concat_self history x (by omega), fun _ => .inr rfl⟩
  · rw [recent_concat_of_not_recent (fun hr => hk ((h k).mpr hr)) hne, or_iff_left hne, ← h x]
    refine ⟨fun hx => ⟨hx, ?_⟩, fun hx => hx.1⟩
    have hcard := h.card_since hx
    omega

theorem Agrees.concat_iff_of_full (h : Agrees n history) (hk : k ∉ entered n history) (hn : 0 < n)
    (hfull : (entered n history).length = n) : Agrees n (history ++ [k]) ↔ FirstUnused n history := by
  obtain ⟨oldest, rest, horder⟩ := List.exists_cons_of_length_pos (hfull ▸ hn)
  have hnew : ¬ Recent n history k := fun hr => hk ((h k).mpr hr)
  have holdest : oldest ∈ entered n history := horder ▸ List.mem_cons_self
  have hnodup := nodup_entered (n := n) history
  rw [horder] at hnodup
  obtain ⟨hout, hrest⟩ := List.nodup_cons.mp hnodup
  have hlength : rest.length + 1 = n := by rw [← hfull, horder, List.length_cons]
  constructor
  · rintro hafter - x hx y hy hne
    rw [horder] at hx hy
    cases hx
    have hyrest := (List.mem_cons.mp hy).resolve_left hne
    have hgone : ¬ Recent n (history ++ [k]) oldest := by
      rw [← hafter oldest, entered_concat_of_full hk hfull horder, List.mem_append,
        List.mem_singleton, not_or]
      exact ⟨hout, fun heq => hk (heq ▸ holdest)⟩
    rw [recent_concat_of_not_recent hnew (fun heq => hk (heq ▸ holdest)), ← h oldest] at hgone
    have hlarge : n ≤ (since history oldest).card + 1 := Nat.not_lt.mp fun hlt => hgone ⟨holdest, hlt⟩
    have hsub : since history oldest ⊆ rest.toFinset := by
      intro z hz
      have hz' := h.since_subset holdest hz
      rw [Finset.mem_erase, List.mem_toFinset, horder] at hz'
      exact List.mem_toFinset.mpr ((List.mem_cons.mp hz'.2).resolve_left hz'.1)
    have heq : since history oldest = rest.toFinset := by
      refine Finset.eq_of_subset_of_card_le hsub ?_
      rw [List.toFinset_card_of_nodup hrest]
      omega
    rw [heq]
    exact List.mem_toFinset.mpr hyrest
  · intro hfirst x
    rw [entered_concat_of_full hk hfull horder, List.mem_append, List.mem_singleton]
    by_cases hne : x = k
    · subst hne
      exact ⟨fun _ => recent_concat_self history x hn, fun _ => .inr rfl⟩
    · have hlater : ∀ y ∈ rest, y ∈ since history oldest := fun y hy =>
        hfirst hfull oldest (by rw [horder]; rfl) y (horder ▸ List.mem_cons_of_mem _ hy)
          fun heq => hout (heq ▸ hy)
      rw [recent_concat_of_not_recent hnew hne, or_iff_left hne, ← h x, horder, List.mem_cons]
      have hbound := h.card_since holdest
      constructor
      · intro hx
        have hcard := card_since_lt (hlater x hx)
        exact ⟨.inr hx, by omega⟩
      · rintro ⟨rfl | hx, hlt⟩
        · have hcard := Finset.card_le_card fun y hy => hlater y (List.mem_toFinset.mp hy)
          rw [List.toFinset_card_of_nodup hrest] at hcard
          omega
        · exact hx

/-- A use leaves the window with the values used last exactly when it is of a value
of the window, or the window is not full, or what it forgets was used before all others. -/
theorem Agrees.concat_iff (h : Agrees n history) (hn : 0 < n) (k : α) :
    Agrees n (history ++ [k]) ↔ k ∈ entered n history ∨ FirstUnused n history := by
  by_cases hk : k ∈ entered n history
  · refine ⟨fun _ => .inl hk, fun _ x => ?_⟩
    rw [entered_concat, enter, if_pos hk, recent_concat_of_recent ((h k).mp hk)]
    exact h x
  · rw [or_iff_right hk]
    rcases (length_entered (n := n) history).lt_or_eq with hlt | hfull
    · exact ⟨fun _ hfull => absurd hfull hlt.ne, fun _ => h.concat_of_lt hk hlt⟩
    · exact h.concat_iff_of_full hk hn hfull

/-- Each new value that comes to a full window pushes out the one used before all others. -/
def Orderly (n : ℕ) (history : List α) : Prop :=
  ∀ before k, before ++ [k] <+: history → k ∈ entered n before ∨ FirstUnused n before

theorem Orderly.initial {history' : List α} (h : Orderly n history) (hp : history' <+: history) :
    Orderly n history' := fun before k hb => h before k (hb.trans hp)

/-- The window has the values used last throughout a history exactly when the history is orderly. -/
theorem agrees_iff (hn : 0 < n) (history : List α) :
    (∀ before, before <+: history → Agrees n before) ↔ Orderly n history := by
  constructor
  · intro h before k hb
    exact ((h before ((List.prefix_append before [k]).trans hb)).concat_iff hn k).mp (h _ hb)
  · intro h before hb
    induction before using List.reverseRecOn with
    | nil => exact agrees_nil n
    | append_singleton before k ih =>
      exact ((ih ((List.prefix_append before [k]).trans hb)).concat_iff hn k).mpr (h before k hb)

theorem length_entered_le (history : List α) : (entered n history).length ≤ history.length := by
  induction history using List.reverseRecOn with
  | nil => exact le_rfl
  | append_singleton history k ih =>
    rw [entered_concat, enter, List.length_append, List.length_singleton]
    split_ifs
    · omega
    · rw [List.length_drop, List.length_append, List.length_singleton]
      omega

/-- A history that is no longer than the window never fills it before the end. -/
theorem orderly_of_length (h : history.length ≤ n) : Orderly n history := by
  intro before k hb
  refine .inr fun hfull => ?_
  have hlength := hb.length_le
  have hentered := length_entered_le (n := n) before
  rw [List.length_append, List.length_singleton] at hlength
  omega

/-! ### Values seen through a map -/

theorem since_map (f : α → β) (hinj : ∀ y ∈ history, f y = f x → y = x) :
    since (history.map f) (f x) = (since history x).image f := by
  induction history using List.reverseRecOn with
  | nil => rfl
  | append_singleton history k ih =>
    have hk : f k = f x ↔ k = x :=
      ⟨hinj k (List.mem_append_right _ List.mem_cons_self), fun h => congrArg f h⟩
    rw [List.map_append, List.map_singleton, since_concat, since_concat,
      ih fun y hy => hinj y (List.mem_append_left _ hy)]
    split_ifs with h h' h'
    · rfl
    · exact absurd (hk.mp h) h'
    · exact absurd (hk.mpr h') h
    · rw [Finset.image_insert]

theorem recent_map (f : α → β) (hinj : ∀ y ∈ x :: history, ∀ z ∈ x :: history, f y = f z → y = z) :
    Recent n (history.map f) (f x) ↔ Recent n history x := by
  have hx : ∀ y ∈ history, f y = f x → y = x := fun y hy =>
    hinj y (List.mem_cons_of_mem x hy) x List.mem_cons_self
  have hcard : (since (history.map f) (f x)).card = (since history x).card := by
    rw [since_map f hx]
    refine Finset.card_image_of_injOn fun y hy z hz => ?_
    exact hinj y (List.mem_cons_of_mem x (mem_of_mem_since hy)) z
      (List.mem_cons_of_mem x (mem_of_mem_since hz))
  rw [Recent, Recent, hcard]
  refine and_congr_left' ⟨fun h => ?_, fun h => List.mem_map_of_mem h⟩
  obtain ⟨y, hy, heq⟩ := List.mem_map.mp h
  exact hx y hy heq ▸ hy

end Jaiba.Lib.Recency
