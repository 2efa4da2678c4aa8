import Jaiba.Memory.Deferral

/-!
# Deadlines of the deferred queue (`deferred.rs`, `flush_deferred_at`)

Coalescing replaces the record that waits under a key and the time it is
counted from. Beside the queue stands, for every key, the oldest update the
sink has not accepted: its deadline is what the queue is meant to keep.
-/

namespace Jaiba.Memory
open Jaiba.Lib

/-- When an update was enqueued, and after how long it is to be flushed. -/
structure Update where
  enqueuedAt : ℕ
  flushAfter : ℕ
  deriving Repr, DecidableEq

def Update.deadline (u : Update) : ℕ := u.enqueuedAt + u.flushAfter

/-- A queue and its sink under a clock, with the oldest update of each key that
the sink has not accepted. -/
structure Deferring where
  manager : Manager
  clock : ℕ
  oldest : String → Option Update

/-- What callers do, so long after the action before. -/
inductive DeferOp where
  | enqueue (record : PersistRecord) (flushAfter : ℕ)
  | flush (platform : Platform) (force : Bool)

namespace Deferring

/-- What waits in the queue at the start is the oldest of its key. -/
def start (m : Manager) : Deferring where
  manager := m
  clock := 0
  oldest := fun key => (m.deferred.items.get? key).map fun item => ⟨item.enqueuedAt, item.flushAfter⟩

/-- An update is the oldest of its key unless one waits already. -/
def note (oldest : String → Option Update) (key : String) (u : Update) : String → Option Update :=
  Function.update oldest key (some ((oldest key).getD u))

/-- The sink accepts a record: nothing older of its key is outstanding. -/
def accept (oldest : String → Option Update) (records : List PersistRecord) :
    String → Option Update :=
  records.foldl (fun oldest r => Function.update oldest r.key none) oldest

/-- `DeferredQueue::enqueue` and `flush_deferred_at`, `elapsed` after the last action. -/
def step (d : Deferring) (a : DeferOp × ℕ) : Option Deferring :=
  let now := d.clock + a.2
  match a.1 with
  | .enqueue record flushAfter =>
    some ⟨{ d.manager with deferred := (d.manager.deferred.enqueue record flushAfter now).2 }, now,
      note d.oldest record.key ⟨now, flushAfter⟩⟩
  | .flush platform force =>
    let m := (d.manager.flushDeferredAt platform now force).2
    some ⟨m, now, accept d.oldest ((m.sink.getD []).drop (d.manager.sink.getD []).length)⟩

/-- Every sequence of enqueues and flushes. -/
def machine : Machine Deferring (DeferOp × ℕ) := ⟨step⟩

/-- Whenever `take_ready` runs next, it leaves no key whose oldest outstanding
update is due by then. -/
def Punctual (d : Deferring) : Prop :=
  ∀ now, d.clock ≤ now → ∀ key u, d.oldest key = some u → u.deadline ≤ now →
    (d.manager.deferred.takeReady now false).2.items.get? key = none

/-- An update enqueued over one that waits is due no later than that one. -/
def Prompt (d : Deferring) (a : DeferOp × ℕ) : Prop :=
  match a.1 with
  | .enqueue record flushAfter =>
    ∀ u, d.oldest record.key = some u → flushAfter = 0 ∨ d.clock + a.2 + flushAfter ≤ u.deadline
  | .flush _ _ => True

/-! ### One step -/

theorem note_self (oldest : String → Option Update) (key : String) (u : Update) :
    note oldest key u key = some ((oldest key).getD u) :=
  Function.update_self _ _ _

theorem note_of_ne {oldest : String → Option Update} {key key' : String} (h : key' ≠ key)
    (u : Update) : note oldest key u key' = oldest key' :=
  Function.update_of_ne h _ _

theorem accept_some {records : List PersistRecord} {oldest : String → Option Update} {key : String}
    {u : Update} (h : accept oldest records key = some u) : oldest key = some u := by
  induction records generalizing oldest with
  | nil => exact h
  | cons r records ih =>
    have hrest : Function.update oldest r.key none key = some u := ih h
    by_cases hk : key = r.key
    · rw [hk, Function.update_self] at hrest
      cases hrest
    · rwa [Function.update_of_ne hk] at hrest

theorem mem_takeReady {q : DeferredQueue} {now : ℕ} {force : Bool} {e : String × DeferredItem}
    (h : e ∈ (q.takeReady now force).2.items.entries) : e ∈ q.items.entries :=
  (List.mem_filter.mp h).1

theorem mem_persistBatch {m : Manager} {platform : Platform} {now written : ℕ}
    {accepted records : List PersistRecord} {e : String × DeferredItem}
    (h : e ∈ (m.persistBatch platform accepted now written records).2.deferred.items.entries) :
    e ∈ m.deferred.items.entries ∨ e.2.flushAfter = 0 := by
  induction records generalizing accepted written with
  | nil => exact .inl h
  | cons r records ih =>
    unfold Manager.persistBatch at h
    split at h
    · rcases Manager.mem_requeueFailed h with he | ⟨r', -, rfl⟩
      · exact .inl he
      · exact .inr rfl
    · exact ih h

/-- What waits after a flush waited before it, or was put back and is due at once. -/
theorem get?_flush {m : Manager} {platform : Platform} {now : ℕ} {force : Bool} {key : String}
    {item : DeferredItem}
    (h : (m.flushDeferredAt platform now force).2.deferred.items.get? key = some item) :
    m.deferred.items.get? key = some item ∨ item.flushAfter = 0 := by
  have hmem := OrderedDict.mem_of_get? h
  unfold Manager.flushDeferredAt at hmem
  simp only at hmem
  split_ifs at hmem
  · exact .inl (OrderedDict.get?_of_mem (mem_takeReady hmem))
  · split at hmem
    · exact .inl (OrderedDict.get?_of_mem (mem_takeReady hmem))
    · rcases mem_persistBatch hmem with hkept | hzero
      · exact .inl (OrderedDict.get?_of_mem (mem_takeReady hkept))
      · exact .inr hzero

/-- `take_ready` leaves an item exactly when it is not due. -/
theorem get?_takeReady (q : DeferredQueue) (now : ℕ) (key : String) :
    (q.takeReady now false).2.items.get? key = none ↔
      ∀ item, q.items.get? key = some item → item.flushAfter ≤ now - item.enqueuedAt := by
  have hrest : ∀ e, e ∈ (q.takeReady now false).2.items.entries ↔
      e ∈ q.items.entries ∧ ¬ e.2.flushAfter ≤ now - e.2.enqueuedAt := by
    intro e
    simp only [DeferredQueue.takeReady, OrderedDict.retain, List.mem_filter, DeferredQueue.ready,
      Bool.false_or, Bool.not_eq_true', decide_eq_false_iff_not]
  constructor
  · intro hnone item hitem
    by_contra hlate
    have hmem := (hrest (key, item)).mpr ⟨OrderedDict.mem_of_get? hitem, hlate⟩
    rw [OrderedDict.get?_of_mem hmem] at hnone
    cases hnone
  · intro hdue
    rw [OrderedDict.get?_none_iff]
    rintro e he rfl
    obtain ⟨hmem, hlate⟩ := (hrest e).mp he
    exact hlate (hdue e.2 (OrderedDict.get?_of_mem hmem))

/-- The item of a key is due no later than its oldest outstanding update. -/
def Bounded (d : Deferring) : Prop :=
  ∀ key u item, d.oldest key = some u → d.manager.deferred.items.get? key = some item →
    item.flushAfter = 0 ∨ item.enqueuedAt + item.flushAfter ≤ u.deadline

theorem Bounded.punctual {d : Deferring} (h : d.Bounded) : d.Punctual := by
  intro now _ key u hu hdue
  rw [get?_takeReady]
  intro item hitem
  rcases h key u item hu hitem with hzero | hle
  · omega
  · omega

theorem Bounded.step {d d' : Deferring} {a : DeferOp × ℕ} (h : d.Bounded) (hprompt : d.Prompt a)
    (hs : d.step a = some d') : d'.Bounded := by
  obtain ⟨op, elapsed⟩ := a
  cases op with
  | enqueue record flushAfter =>
    cases Option.some.inj hs
    intro key u item hu hitem
    simp only [DeferredQueue.enqueue, OrderedDict.get?_insert] at hitem
    by_cases hk : key = record.key
    · subst hk
      rw [if_pos rfl] at hitem
      cases Option.some.inj hitem
      cases Option.some.inj ((note_self _ _ _).symm.trans hu)
      cases hold : d.oldest record.key with
      | none => exact .inr (le_refl _)
      | some old => exact hprompt old hold
    · rw [if_neg hk] at hitem
      exact h key u item ((note_of_ne hk _).symm.trans hu) hitem
  | flush platform force =>
    cases Option.some.inj hs
    intro key u item hu hitem
    rcases get?_flush hitem with hkept | hzero
    · exact h key u item (accept_some hu) hkept
    · exact .inl hzero

/-- One late enqueue over a waiting update, and the queue is no longer punctual. -/
theorem not_punctual_of_late {d d' : Deferring} {a : DeferOp × ℕ} (hlate : ¬ d.Prompt a)
    (hs : d.step a = some d') : ¬ d'.Punctual := by
  obtain ⟨op, elapsed⟩ := a
  cases op with
  | flush platform force => exact absurd trivial hlate
  | enqueue record flushAfter =>
    cases Option.some.inj hs
    rw [Prompt] at hlate
    simp only [not_forall, not_or, Nat.not_le] at hlate
    obtain ⟨u, hu, hpos, hlater⟩ := hlate
    intro hpunctual
    have hnone := hpunctual (max (d.clock + elapsed) u.deadline) (le_max_left _ _) record.key u
      ((note_self _ _ _).trans (by rw [hu]; rfl)) (le_max_right _ _)
    rw [get?_takeReady] at hnone
    have hdue := hnone ⟨record, d.clock + elapsed, flushAfter⟩
      (by simp only [DeferredQueue.enqueue, OrderedDict.get?_insert, if_pos])
    simp only at hdue
    omega

/-! ### Runs -/

theorem bounded_start (m : Manager) : (start m).Bounded := by
  intro key u item hu hitem
  simp only [start] at hu hitem
  rw [hitem] at hu
  cases Option.some.inj hu
  exact .inr (le_refl _)

/-- In every run in which no waiting key is enqueued again with a later
deadline, no flush leaves an update that is due; the first enqueue that has a
later deadline leads to a state in which one will. -/
theorem punctual_while_prompt (m : Manager) :
    (∀ d, machine.Reach Prompt (start m) d → d.Punctual) ∧
      ∀ d a d', machine.Reachable (start m) d → machine.step d a = some d' → ¬ d.Prompt a →
        ¬ d'.Punctual := by
  refine ⟨fun d hd => ?_, fun d a d' _ hs hlate => not_punctual_of_late hlate hs⟩
  refine Bounded.punctual (Machine.Reach.invariant (I := Bounded) hd (bounded_start m) ?_)
  intro s a t hi hprompt hs
  exact hi.step hprompt hs

/-- A manager with an empty queue and a sink. -/
def idleManager : Manager where
  hot := ⟨Dict.empty, 4, 100⟩
  tiers := fun _ => Dict.empty
  sink := some []
  deferred := ⟨OrderedDict.empty, 4⟩

/-- Two updates of one key, eight seconds apart, each to be flushed after ten. -/
def postponing : List (DeferOp × ℕ) :=
  [(.enqueue ⟨"orders:o-1", "orders", one, .deferred, .high⟩ 10, 0),
    (.enqueue ⟨"orders:o-1", "orders", two, .deferred, .high⟩ 10, 8)]

/-- Ten seconds after the first update a flush leaves the key waiting. -/
theorem postponing_keeps : ∃ d, machine.exec (start idleManager) postponing = some d ∧
    d.oldest "orders:o-1" = some ⟨0, 10⟩ ∧ ¬ d.Punctual := by
  refine ⟨_, rfl, rfl, fun hpunctual => ?_⟩
  have hnone := hpunctual 10 (by decide) "orders:o-1" ⟨0, 10⟩ rfl (by decide)
  rw [get?_takeReady] at hnone
  exact absurd (hnone _ rfl) (by decide)

end Deferring

end Jaiba.Memory
