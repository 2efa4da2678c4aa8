import Mathlib.Data.List.Basic
import Mathlib.Logic.Function.Basic

/-!
# Coalescing outboxes

Records of many keys go out through a buffer that holds one record a key: a new
one takes the place of the one that waits. A record is numbered when it is
enqueued, and the outbox remembers which numbers went out.
-/

namespace Jaiba.Lib

structure Outbox (κ α : Type) where
  /-- every record enqueued, under its number -/
  log : List α
  pending : κ → Option ℕ
  /-- the numbers that went out, in order -/
  accepted : List ℕ

namespace Outbox

variable {κ α : Type} [DecidableEq κ] {key : α → κ} {o : Outbox κ α} {k : κ} {i : ℕ} {a : α}

def empty : Outbox κ α := ⟨[], fun _ => none, []⟩

def enqueue (key : α → κ) (o : Outbox κ α) (a : α) : Outbox κ α :=
  { o with
    log := o.log ++ [a]
    pending := Function.update o.pending (key a) (some o.log.length) }

/-- What waits under `k` goes out. -/
def accept (o : Outbox κ α) (k : κ) : Outbox κ α :=
  match o.pending k with
  | none => o
  | some i =>
    { o with pending := Function.update o.pending k none, accepted := o.accepted ++ [i] }

theorem log_accept (o : Outbox κ α) (k : κ) : (o.accept k).log = o.log := by
  rw [accept]
  split <;> rfl

theorem accept_of_pending (h : o.pending k = some i) : o.accept k =
    { o with pending := Function.update o.pending k none, accepted := o.accepted ++ [i] } := by
  rw [accept, h]

theorem pending_accept_self (h : o.pending k = some i) : (o.accept k).pending k = none := by
  rw [accept_of_pending h]
  exact Function.update_self _ _ _

theorem pending_accept_of_ne {k' : κ} (hk : k' ≠ k) : (o.accept k).pending k' = o.pending k' := by
  rw [accept]
  split
  · rfl
  · exact Function.update_of_ne hk _ _

theorem accepted_accept (h : o.pending k = some i) : (o.accept k).accepted = o.accepted ++ [i] := by
  rw [accept_of_pending h]

/-- `i` is the last number a record of `k` was given. -/
structure Newest (key : α → κ) (o : Outbox κ α) (k : κ) (i : ℕ) : Prop where
  record : ∃ a, o.log[i]? = some a ∧ key a = k
  last : ∀ j a, o.log[j]? = some a → key a = k → j ≤ i

omit [DecidableEq κ] in
theorem Newest.unique {j : ℕ} (h : o.Newest key k i) (h' : o.Newest key k j) : i = j := by
  obtain ⟨a, ha, hk⟩ := h.record
  obtain ⟨b, hb, hk'⟩ := h'.record
  exact Nat.le_antisymm (h'.last i a ha hk) (h.last j b hb hk')

/-- Nothing newer is lost or overtaken. -/
structure Sound (key : α → κ) (o : Outbox κ α) : Prop where
  newest : ∀ k i, o.pending k = some i → o.Newest key k i
  fresh : ∀ k i, o.pending k = some i → i ∉ o.accepted
  known : ∀ i ∈ o.accepted, i < o.log.length
  ordered : o.accepted.Pairwise fun i j => ∀ a b, o.log[i]? = some a → o.log[j]? = some b →
    key a = key b → i < j
  kept : ∀ k i, o.Newest key k i → o.pending k = some i ∨ i ∈ o.accepted

omit [DecidableEq κ] in
theorem sound_empty : (empty : Outbox κ α).Sound key where
  newest := fun k i h => by cases h
  fresh := fun k i h => by cases h
  known := fun i h => absurd h List.not_mem_nil
  ordered := List.Pairwise.nil
  kept := fun k i h => by
    obtain ⟨a, ha, -⟩ := h.record
    cases ha

theorem log_enqueue {j : ℕ} {b : α} (h : (o.enqueue key a).log[j]? = some b) :
    o.log[j]? = some b ∨ j = o.log.length ∧ b = a := by
  rw [enqueue] at h
  rcases Nat.lt_trichotomy j o.log.length with hj | rfl | hj
  · rw [List.getElem?_append_left hj] at h
    exact .inl h
  · rw [List.getElem?_concat_length] at h
    exact .inr ⟨rfl, (Option.some.inj h).symm⟩
  · rw [List.getElem?_eq_none (by rw [List.length_append, List.length_singleton]; omega)] at h
    cases h

theorem log_enqueue_of_some {j : ℕ} {b : α} (h : o.log[j]? = some b) :
    (o.enqueue key a).log[j]? = some b := by
  have hj := (List.getElem?_eq_some_iff.mp h).1
  rw [enqueue, List.getElem?_append_left hj, h]

omit [DecidableEq κ] in
theorem lt_of_log {j : ℕ} {b : α} (h : o.log[j]? = some b) : j < o.log.length :=
  (List.getElem?_eq_some_iff.mp h).1

theorem pending_enqueue_self : (o.enqueue key a).pending (key a) = some o.log.length :=
  Function.update_self _ _ _

theorem pending_enqueue_of_ne (hk : k ≠ key a) : (o.enqueue key a).pending k = o.pending k :=
  Function.update_of_ne hk _ _

theorem newest_enqueue_self : (o.enqueue key a).Newest key (key a) o.log.length where
  record := ⟨a, by rw [enqueue, List.getElem?_concat_length], rfl⟩
  last := fun j b hb _ => by
    rcases log_enqueue hb with hb | ⟨rfl, -⟩
    · exact Nat.le_of_lt (lt_of_log hb)
    · exact Nat.le_refl _

theorem newest_enqueue_of_ne (hk : k ≠ key a) :
    (o.enqueue key a).Newest key k i ↔ o.Newest key k i := by
  constructor
  · intro h
    obtain ⟨b, hb, hkb⟩ := h.record
    refine ⟨?_, fun j c hc hkc => h.last j c (log_enqueue_of_some hc) hkc⟩
    rcases log_enqueue hb with hb | ⟨-, rfl⟩
    · exact ⟨b, hb, hkb⟩
    · exact absurd hkb.symm hk
  · intro h
    obtain ⟨b, hb, hkb⟩ := h.record
    refine ⟨⟨b, log_enqueue_of_some hb, hkb⟩, fun j c hc hkc => ?_⟩
    rcases log_enqueue hc with hc | ⟨-, rfl⟩
    · exact h.last j c hc hkc
    · exact absurd hkc.symm hk

theorem Sound.enqueue (h : o.Sound key) (a : α) : (o.enqueue key a).Sound key where
  newest := fun k i hi => by
    by_cases hk : k = key a
    · subst hk
      rw [pending_enqueue_self] at hi
      cases hi
      exact newest_enqueue_self
    · rw [pending_enqueue_of_ne hk] at hi
      exact (newest_enqueue_of_ne hk).mpr (h.newest k i hi)
  fresh := fun k i hi hmem => by
    by_cases hk : k = key a
    · subst hk
      rw [pending_enqueue_self] at hi
      cases hi
      exact Nat.lt_irrefl _ (h.known _ hmem)
    · rw [pending_enqueue_of_ne hk] at hi
      exact h.fresh k i hi hmem
  known := fun i hi => by
    have hlt := h.known i hi
    rw [Outbox.enqueue, List.length_append]
    omega
  ordered := by
    refine h.ordered.imp_of_mem fun {i j} hi hj hij b c hb hc hk => ?_
    rcases log_enqueue hb with hb | ⟨rfl, -⟩
    · rcases log_enqueue hc with hc | ⟨rfl, -⟩
      · exact hij b c hb hc hk
      · exact lt_of_log hb
    · exact absurd (h.known _ hi) (Nat.lt_irrefl _)
  kept := fun k i hi => by
    by_cases hk : k = key a
    · subst hk
      rw [hi.unique newest_enqueue_self]
      exact .inl pending_enqueue_self
    · rcases h.kept k i ((newest_enqueue_of_ne hk).mp hi) with hp | hm
      · exact .inl ((pending_enqueue_of_ne hk).trans hp)
      · exact .inr hm

theorem newest_accept {k' : κ} : (o.accept k').Newest key k i ↔ o.Newest key k i := by
  have hlog := log_accept o k'
  constructor <;> intro h <;> refine ⟨?_, ?_⟩
  · rw [← hlog]
    exact h.record
  · rw [← hlog]
    exact h.last
  · rw [hlog]
    exact h.record
  · rw [hlog]
    exact h.last

theorem Sound.accept (h : o.Sound key) (k : κ) : (o.accept k).Sound key := by
  cases hk : o.pending k with
  | none =>
    rw [Outbox.accept, hk]
    exact h
  | some i =>
    have hi := h.newest k i hk
    obtain ⟨a, ha, hka⟩ := hi.record
    have hstill : ∀ k' j, (o.accept k).pending k' = some j → k' ≠ k ∧ o.pending k' = some j := by
      intro k' j hj
      by_cases hkk : k' = k
      · rw [hkk, pending_accept_self hk] at hj
        cases hj
      · exact ⟨hkk, (pending_accept_of_ne hkk).symm.trans hj⟩
    refine ⟨fun k' j hj => newest_accept.mpr (h.newest k' j (hstill k' j hj).2), ?_, ?_, ?_, ?_⟩
    · intro k' j hj hmem
      obtain ⟨hne, hj⟩ := hstill k' j hj
      rw [accepted_accept hk] at hmem
      rcases List.mem_append.mp hmem with hmem | hmem
      · exact h.fresh k' j hj hmem
      · rw [List.mem_singleton.mp hmem] at hj
        obtain ⟨b, hb, hkb⟩ := (h.newest k' i hj).record
        rw [ha] at hb
        cases hb
        exact hne (hkb.symm.trans hka)
    · intro j hj
      rw [accepted_accept hk] at hj
      rw [log_accept]
      rcases List.mem_append.mp hj with hj | hj
      · exact h.known j hj
      · rw [List.mem_singleton.mp hj]
        exact lt_of_log ha
    · rw [accepted_accept hk, log_accept]
      refine List.pairwise_append.mpr ⟨h.ordered, List.pairwise_singleton _ _, ?_⟩
      intro j hj j' hj' b c hb hc hkbc
      rw [List.mem_singleton.mp hj'] at hc ⊢
      rw [ha] at hc
      cases hc
      have hle := hi.last j b hb (hkbc.trans hka)
      have hne : j ≠ i := fun heq => h.fresh k i hk (heq ▸ hj)
      omega
    · intro k' j hj
      rw [newest_accept] at hj
      rw [accepted_accept hk]
      rcases h.kept k' j hj with hp | hm
      · by_cases hkk : k' = k
        · rw [hkk, hk] at hp
          cases hp
          exact .inr (List.mem_append_right _ (List.mem_singleton_self i))
        · exact .inl ((pending_accept_of_ne hkk).trans hp)
      · exact .inr (List.mem_append_left _ hm)

end Outbox

end Jaiba.Lib
