import Jaiba.Engine.State

/-!
# Scheduling (`engine/executor/scheduler.rs`)

`schedule_available`: the pending packets that may start, in the order of the
queue. A packet that may not goes to its end; after a start the whole queue is
inspected again.
-/

namespace Jaiba.Engine
open Jaiba.Control Jaiba.Repository

/-- What the environment contributes to one pass: the clock of the repository
and the `claim` calls that fail. -/
structure ScheduleInput where
  now : ℤ
  claimError : String → Option FlowError

/-- Tasks of a processor that may run at once. -/
def processorLimit (p : ProcessorConfig) : ℕ :=
  match p.scheduling.ordering with
  | .preserve => 1
  | .unordered | .partitioned => p.scheduling.concurrentTasks

/-- The partition key of an item, for a partitioned processor. -/
def partitionKeyOf (p : ProcessorConfig) (w : WorkItem) : Except FlowError (Option String) :=
  match p.scheduling.ordering with
  | .partitioned =>
    match packetPartitionKey w.packet (p.scheduling.partitionBy.getD "") w.processorId with
    | .ok key => .ok (some key)
    | .error e => .error e
  | .unordered | .preserve => .ok none

/-- What becomes of one inspected item. -/
inductive Decision where
  | skip
  /-- claimed elsewhere: the item leaves the queue -/
  | drop
  | start (p : ProcessorConfig) (key : Option String) (db : Option Database)
  | stop (exit : Exit)

/-- One round of the loop of `schedule_available`. -/
def decide? (σ : Setup) (input : ScheduleInput) (backlog : ℕ) (s : State) (w : WorkItem) :
    Decision :=
  if w.isSourceSeed && σ.config.engine.queueCapacity ≤ backlog + s.running.length then .skip
  else
    match σ.config.definition? w.processorId with
    | none => .stop (.panicked "validated")
    | some p =>
      if σ.config.engine.maxConcurrency <
          s.running.length + 1 + depthOf σ.config w.processorId then .skip
      else if processorLimit p ≤ s.active w.processorId then .skip
      else
        match partitionKeyOf p w with
        | .error e => .stop (.failed e)
        | .ok key =>
          if key.any fun key => key ∈ s.partitions w.processorId then .skip
          else
            match s.db, w.queueId with
            | some db, some queueId =>
              match input.claimError queueId with
              | some e => .stop (.failed e)
              | none =>
                match db.claim input.now queueId with
                | (false, _) => .drop
                | (true, db) => .start p key (some db)
            | _, _ => .start p key s.db

/-- Where a pass comes to a halt: nothing left to start, an item that starts
with the rest of the queue, or the end of the run. -/
inductive Pass where
  | idle (pending : List WorkItem)
  | start (w : WorkItem) (p : ProcessorConfig) (key : Option String) (db : Option Database)
      (pending : List WorkItem)
  | stop (exit : Exit)

/-- Inspect the queue up to the next start; `skipped` are the items already
inspected. -/
def inspect (σ : Setup) (input : ScheduleInput) (backlog : ℕ) (s : State) :
    List WorkItem → List WorkItem → Pass
  | [], skipped => .idle skipped
  | w :: rest, skipped =>
    if σ.config.engine.maxConcurrency ≤ s.running.length then .idle (w :: rest ++ skipped)
    else
      match decide? σ input backlog s w with
      | .skip => inspect σ input backlog s rest (skipped ++ [w])
      | .drop => inspect σ input backlog s rest skipped
      | .start p key db => .start w p key db (rest ++ skipped)
      | .stop exit => .stop exit

/-- The task that a started item becomes. -/
def taskOf (σ : Setup) (w : WorkItem) (p : ProcessorConfig) (key : Option String) : Task where
  serial := w.serial
  processorId := w.processorId
  partitionKey := key
  queueId := w.queueId
  mode := σ.modeOf p
  permit := !pooled (σ.modeOf p)
  program := σ.programOf w p

/-- The bookkeeping of a start. -/
def State.start (σ : Setup) (s : State) (w : WorkItem) (p : ProcessorConfig)
    (key : Option String) (db : Option Database) (pending : List WorkItem) : State :=
  { s with
    pending := pending
    running := s.running ++ [taskOf σ w p key]
    active := Function.update s.active w.processorId (s.active w.processorId + 1)
    partitions := insertPartition s.partitions w.processorId key
    db := db }

/-- The outer loop; each round starts one item, so as many rounds as there are
items are enough. -/
def startAll (σ : Setup) (input : ScheduleInput) (backlog : ℕ) : ℕ → State → State
  | 0, s => { s with phase := .checking }
  | rounds + 1, s =>
    match inspect σ input backlog s s.pending [] with
    | .idle pending => { s with pending := pending, phase := .checking }
    | .start w p key db pending =>
      startAll σ input backlog rounds (s.start σ w p key db pending)
    | .stop exit => { s with phase := .ended exit }

/-- `schedule_available`; nothing starts unless the flow is `RUNNING`. -/
def scheduleAvailable (σ : Setup) (input : ScheduleInput) (s : State) : State :=
  if s.control ≠ .running then { s with phase := .checking }
  else
    startAll σ input (State.queued s.pending + s.channel.length) s.pending.length s

/-! ### What a pass does -/

variable {σ : Setup} {input : ScheduleInput} {backlog : ℕ} {s : State} {w : WorkItem}

/-- The item starts with the key and leaves the repository as `db`. -/
structure Startable (σ : Setup) (input : ScheduleInput) (s : State) (w : WorkItem)
    (p : ProcessorConfig) (key : Option String) (db : Option Database) : Prop where
  definition : σ.config.definition? w.processorId = some p
  slots : s.running.length + 1 + depthOf σ.config w.processorId ≤ σ.config.engine.maxConcurrency
  limit : s.active w.processorId < processorLimit p
  keyOf : partitionKeyOf p w = .ok key
  partition : ∀ k, key = some k → k ∉ s.partitions w.processorId
  claim : (db = s.db ∧ (s.db = none ∨ w.queueId = none)) ∨
    ∃ d d' queueId, s.db = some d ∧ w.queueId = some queueId ∧ db = some d' ∧
      d.claim input.now queueId = (true, d')

/-- The outcomes of one round, in the order of its tests. -/
theorem decide?_cases (σ : Setup) (input : ScheduleInput) (backlog : ℕ) (s : State)
    (w : WorkItem) :
    (decide? σ input backlog s w = .skip ∧
      (w.isSourceSeed = true ∧ σ.config.engine.queueCapacity ≤ backlog + s.running.length ∨
        σ.config.engine.maxConcurrency <
          s.running.length + 1 + depthOf σ.config w.processorId ∨
        ∃ p, σ.config.definition? w.processorId = some p ∧
          (processorLimit p ≤ s.active w.processorId ∨
            ∃ key, key ∈ s.partitions w.processorId))) ∨
    ((∃ exit, decide? σ input backlog s w = .stop exit) ∧
      (σ.config.definition? w.processorId = none ∨
        (∃ p e, σ.config.definition? w.processorId = some p ∧ partitionKeyOf p w = .error e) ∨
        ∃ queueId e, w.queueId = some queueId ∧ input.claimError queueId = some e)) ∨
    (decide? σ input backlog s w = .drop ∧ ∃ d queueId, s.db = some d ∧
      w.queueId = some queueId ∧ (d.claim input.now queueId).1 = false) ∨
    ∃ p key db, decide? σ input backlog s w = .start p key db ∧
      Startable σ input s w p key db := by
  unfold decide?
  split
  next hseed =>
    rw [Bool.and_eq_true, decide_eq_true_eq] at hseed
    exact .inl ⟨rfl, .inl hseed⟩
  next =>
    split
    next hp => exact .inr (.inl ⟨⟨_, rfl⟩, .inl hp⟩)
    next p hp =>
      split
      next hslots => exact .inl ⟨rfl, .inr (.inl hslots)⟩
      next hslots =>
        split
        next hlimit => exact .inl ⟨rfl, .inr (.inr ⟨p, hp, .inl hlimit⟩)⟩
        next hlimit =>
          split
          next e he => exact .inr (.inl ⟨⟨_, rfl⟩, .inr (.inl ⟨p, e, hp, he⟩)⟩)
          next key hkey =>
            split
            next hpart =>
              cases key with
              | none => cases hpart
              | some k => exact .inl ⟨rfl, .inr (.inr ⟨p, hp, .inr ⟨k, by simpa using hpart⟩⟩)⟩
            next hpart =>
              have hfree : ∀ k, key = some k → k ∉ s.partitions w.processorId := by
                rintro k rfl
                simpa using hpart
              have hstart : ∀ db, (db = s.db ∧ (s.db = none ∨ w.queueId = none) ∨
                  ∃ d d' queueId, s.db = some d ∧ w.queueId = some queueId ∧ db = some d' ∧
                    d.claim input.now queueId = (true, d')) →
                  Startable σ input s w p key db := fun db hclaim =>
                ⟨hp, Nat.not_lt.mp hslots, Nat.not_le.mp hlimit, hkey, hfree, hclaim⟩
              split
              next d queueId hd hw =>
                split
                next e he => exact .inr (.inl ⟨⟨_, rfl⟩, .inr (.inr ⟨queueId, e, hw, he⟩)⟩)
                next =>
                  split
                  next d' hc =>
                    exact .inr (.inr (.inl ⟨rfl, d, queueId, hd, hw, congrArg Prod.fst hc⟩))
                  next d' hc =>
                    exact .inr (.inr (.inr ⟨p, key, some d', rfl,
                      hstart _ (.inr ⟨d, d', queueId, hd, hw, rfl, hc⟩)⟩))
              next hno =>
                refine .inr (.inr (.inr ⟨p, key, s.db, rfl, hstart _ (.inl ⟨rfl, ?_⟩)⟩))
                cases hd : s.db with
                | none => exact .inl rfl
                | some d =>
                  cases hw : w.queueId with
                  | none => exact .inr rfl
                  | some queueId => exact (hno d queueId hd hw).elim

theorem startable_of_decide {p : ProcessorConfig} {key : Option String} {db : Option Database}
    (h : decide? σ input backlog s w = .start p key db) : Startable σ input s w p key db := by
  rcases decide?_cases σ input backlog s w with
    ⟨hs, _⟩ | ⟨⟨_, hs⟩, _⟩ | ⟨hs, _⟩ | ⟨_, _, _, hs, hst⟩ <;> rw [h] at hs <;> cases hs
  exact hst

/-- Why an item is held back. -/
theorem held_of_decide (h : decide? σ input backlog s w = .skip) :
    w.isSourceSeed = true ∧ σ.config.engine.queueCapacity ≤ backlog + s.running.length ∨
    σ.config.engine.maxConcurrency <
      s.running.length + 1 + depthOf σ.config w.processorId ∨
    ∃ p, σ.config.definition? w.processorId = some p ∧
      (processorLimit p ≤ s.active w.processorId ∨ ∃ key, key ∈ s.partitions w.processorId) := by
  rcases decide?_cases σ input backlog s w with
    ⟨_, hh⟩ | ⟨⟨_, hs⟩, _⟩ | ⟨hs, _⟩ | ⟨_, _, _, hs, _⟩
  · exact hh
  all_goals
    rw [h] at hs
    cases hs

/-- Why an item ends the run. -/
theorem stop_of_decide {exit : Exit} (h : decide? σ input backlog s w = .stop exit) :
    σ.config.definition? w.processorId = none ∨
    (∃ p e, σ.config.definition? w.processorId = some p ∧ partitionKeyOf p w = .error e) ∨
    ∃ queueId e, w.queueId = some queueId ∧ input.claimError queueId = some e := by
  rcases decide?_cases σ input backlog s w with ⟨hs, _⟩ | ⟨_, hh⟩ | ⟨hs, _⟩ | ⟨_, _, _, hs, _⟩
  · rw [h] at hs
    cases hs
  · exact hh
  all_goals
    rw [h] at hs
    cases hs

/-- Why an item leaves the queue without a start. -/
theorem drop_of_decide (h : decide? σ input backlog s w = .drop) :
    ∃ d queueId, s.db = some d ∧ w.queueId = some queueId ∧
      (d.claim input.now queueId).1 = false := by
  rcases decide?_cases σ input backlog s w with
    ⟨hs, _⟩ | ⟨⟨_, hs⟩, _⟩ | ⟨_, hh⟩ | ⟨_, _, _, hs, _⟩
  · rw [h] at hs
    cases hs
  · rw [h] at hs
    cases hs
  · exact hh
  · rw [h] at hs
    cases hs

/-- The items that one inspection takes out of the queue without a start. -/
def Dropped (σ : Setup) (input : ScheduleInput) (backlog : ℕ) (s : State)
    (dropped : List WorkItem) : Prop := ∀ w ∈ dropped, decide? σ input backlog s w = .drop

/-- The result of one inspection of the queue. -/
theorem inspect_spec (rest skipped : List WorkItem)
    (hskip : ∀ w ∈ skipped, decide? σ input backlog s w = .skip) :
    (∃ pending dropped, inspect σ input backlog s rest skipped = .idle pending ∧
      (pending ++ dropped).Perm (rest ++ skipped) ∧ Dropped σ input backlog s dropped ∧
      (σ.config.engine.maxConcurrency ≤ s.running.length ∨
        ∀ w ∈ pending, decide? σ input backlog s w = .skip)) ∨
    (∃ w p key db pending dropped,
      inspect σ input backlog s rest skipped = .start w p key db pending ∧
      (w :: pending ++ dropped).Perm (rest ++ skipped) ∧ Dropped σ input backlog s dropped ∧
      decide? σ input backlog s w = .start p key db) ∨
    ∃ w ∈ rest, ∃ exit, inspect σ input backlog s rest skipped = .stop exit ∧
      decide? σ input backlog s w = .stop exit := by
  induction rest generalizing skipped with
  | nil =>
    have hperm : (skipped ++ []).Perm ([] ++ skipped) := by simp
    exact .inl ⟨skipped, [], rfl, hperm, by simp [Dropped], .inr hskip⟩
  | cons x rest ih =>
    unfold inspect
    split_ifs with hfull
    · have hperm : (x :: rest ++ skipped ++ []).Perm (x :: rest ++ skipped) := by simp
      exact .inl ⟨_, [], rfl, hperm, by simp [Dropped], .inl hfull⟩
    · cases hd : decide? σ input backlog s x with
      | skip =>
        have hskip' : ∀ w ∈ skipped ++ [x], decide? σ input backlog s w = .skip := by
          intro w hw
          rcases List.mem_append.mp hw with hw | hw
          · exact hskip w hw
          · rw [List.mem_singleton.mp hw]
            exact hd
        have hperm : (rest ++ (skipped ++ [x])).Perm (x :: rest ++ skipped) := by
          rw [← List.append_assoc]
          exact List.perm_append_singleton x _
        rcases ih (skipped ++ [x]) hskip' with ⟨pending, dropped, h, hp, hi⟩ |
          ⟨w, p, key, db, pending, dropped, h, hp, hw⟩ | ⟨w, hw, exit, h, hx⟩
        · exact .inl ⟨pending, dropped, h, hp.trans hperm, hi⟩
        · exact .inr (.inl ⟨w, p, key, db, pending, dropped, h, hp.trans hperm, hw⟩)
        · exact .inr (.inr ⟨w, List.mem_cons_of_mem x hw, exit, h, hx⟩)
      | drop =>
        have hcons : ∀ dropped, Dropped σ input backlog s dropped →
            Dropped σ input backlog s (x :: dropped) := by
          intro dropped hdrop w hw
          rcases List.mem_cons.mp hw with rfl | hw
          · exact hd
          · exact hdrop w hw
        have hperm : ∀ {l dropped : List WorkItem}, (l ++ dropped).Perm (rest ++ skipped) →
            (l ++ x :: dropped).Perm (x :: rest ++ skipped) := by
          intro l dropped hp
          exact List.perm_middle.trans (hp.cons x)
        rcases ih skipped hskip with ⟨pending, dropped, h, hp, hdrop, hi⟩ |
          ⟨w, p, key, db, pending, dropped, h, hp, hdrop, hw⟩ | ⟨w, hw, exit, h, hx⟩
        · exact .inl ⟨pending, x :: dropped, h, hperm hp, hcons dropped hdrop, hi⟩
        · exact .inr (.inl ⟨w, p, key, db, pending, x :: dropped, h, hperm hp,
            hcons dropped hdrop, hw⟩)
        · exact .inr (.inr ⟨w, List.mem_cons_of_mem x hw, exit, h, hx⟩)
      | start p key db =>
        have hperm : (x :: (rest ++ skipped) ++ []).Perm (x :: rest ++ skipped) := by simp
        exact .inr (.inl ⟨x, p, key, db, rest ++ skipped, [], rfl, hperm, by simp [Dropped], hd⟩)
      | stop exit => exact .inr (.inr ⟨x, List.mem_cons_self, exit, rfl, hd⟩)

/-- `Schedules σ input backlog s t`: a pass from `s` to `t`, start by start. -/
inductive Schedules (σ : Setup) (input : ScheduleInput) (backlog : ℕ) : State → State → Prop where
  | idle {s : State} {pending dropped : List WorkItem} :
      (pending ++ dropped).Perm s.pending → Dropped σ input backlog s dropped →
      (σ.config.engine.maxConcurrency ≤ s.running.length ∨
        ∀ w ∈ pending, decide? σ input backlog s w = .skip) →
      Schedules σ input backlog s { s with pending := pending, phase := .checking }
  | start {s t : State} {w : WorkItem} {p : ProcessorConfig} {key : Option String}
      {db : Option Database} {pending dropped : List WorkItem} :
      (w :: pending ++ dropped).Perm s.pending → Dropped σ input backlog s dropped →
      Startable σ input s w p key db →
      Schedules σ input backlog (s.start σ w p key db pending) t → Schedules σ input backlog s t
  | stop {s : State} {w : WorkItem} {exit : Exit} : w ∈ s.pending →
      decide? σ input backlog s w = .stop exit →
      Schedules σ input backlog s { s with phase := .ended exit }

theorem startAll_schedules (rounds : ℕ) (s : State) (h : s.pending.length ≤ rounds) :
    Schedules σ input backlog s (startAll σ input backlog rounds s) := by
  induction rounds generalizing s with
  | zero =>
    have hnil : s.pending = [] := List.length_eq_zero_iff.mp (Nat.le_zero.mp h)
    have hidle := @Schedules.idle σ input backlog s s.pending [] (by simp) (by simp [Dropped])
      (.inr (by simp [hnil]))
    exact hidle
  | succ rounds ih =>
    unfold startAll
    rcases @inspect_spec σ input backlog s s.pending []
      (by simp) with ⟨pending, dropped, hr, hp, hdrop, hi⟩ |
        ⟨w, p, key, db, pending, dropped, hr, hp, hdrop, hd⟩ | ⟨w, hw, exit, hr, hd⟩ <;> rw [hr]
    · exact .idle (by simpa using hp) hdrop hi
    · rw [List.append_nil] at hp
      have hlen := hp.length_eq
      rw [List.cons_append, List.length_cons, List.length_append] at hlen
      refine .start hp hdrop (startable_of_decide hd) (ih _ ?_)
      simp only [State.start]
      omega
    · exact .stop hw hd

/-- A pass of a running flow. -/
theorem scheduleAvailable_schedules (input : ScheduleInput) (h : s.control = .running) :
    Schedules σ input (State.queued s.pending + s.channel.length) s
      (scheduleAvailable σ input s) := by
  rw [scheduleAvailable, if_neg (by simp [h])]
  exact startAll_schedules _ s (Nat.le_refl _)

/-- A pass writes the queue, the running tasks and the repository only. -/
theorem Schedules.frame {t : State} (h : Schedules σ input backlog s t) :
    t = { s with
      phase := t.phase
      pending := t.pending
      running := t.running
      active := t.active
      partitions := t.partitions
      db := t.db } := by
  induction h with
  | idle | stop => rfl
  | start _ _ _ _ ih => exact ih

theorem scheduleAvailable_cases (σ : Setup) (input : ScheduleInput) (s : State) :
    (s.control ≠ .running ∧ scheduleAvailable σ input s = { s with phase := .checking }) ∨
    (s.control = .running ∧ Schedules σ input (State.queued s.pending + s.channel.length) s
      (scheduleAvailable σ input s)) := by
  by_cases h : s.control = .running
  · exact .inr ⟨h, scheduleAvailable_schedules input h⟩
  · exact .inl ⟨h, if_pos h⟩

end Jaiba.Engine
