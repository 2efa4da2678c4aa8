import Jaiba.Engine.Occupancy

/-!
# Order of the starts

A lane is a processor with ordering `preserve`, or one partition key of a
partitioned processor. The serials of packets are issued in the order in which
they were routed, those of recovered packets in the order of recovery.
-/

namespace Jaiba.Engine
open Jaiba.Lib Jaiba.Control Jaiba.Repository

abbrev Lane := String × Option String

/-- The lane of a processor and a partition key. -/
def laneOf (config : FlowConfig) (processorId : String) (key : Option String) : Option Lane :=
  match config.definition? processorId with
  | none => none
  | some p =>
    match p.scheduling.ordering with
    | .preserve | .partitioned => some (processorId, key)
    | .unordered => none

def itemLane (config : FlowConfig) (w : WorkItem) : Option Lane :=
  match config.definition? w.processorId with
  | none => none
  | some p =>
    match partitionKeyOf p w with
    | .error _ => none
    | .ok key => laneOf config w.processorId key

def taskLane (config : FlowConfig) (x : Task) : Option Lane :=
  laneOf config x.processorId x.partitionKey

/-- Both are in a lane, the same. -/
def sameLane (a b : Option Lane) : Bool := a.isSome && a = b

/-- At the next start of a pass, no lane has packets held back in front of the
packet that starts and packets behind it; `skipped` are those in front. -/
def inTurn (σ : Setup) (input : ScheduleInput) (backlog : ℕ) (s : State) :
    List WorkItem → List WorkItem → Bool
  | [], _ => true
  | w :: rest, skipped =>
    if σ.config.engine.maxConcurrency ≤ s.running.length then true
    else
      match decide? σ input backlog s w with
      | .skip => inTurn σ input backlog s rest (skipped ++ [w])
      | .drop => inTurn σ input backlog s rest skipped
      | .start _ _ _ => skipped.all fun f => rest.all fun b =>
          !sameLane (itemLane σ.config f) (itemLane σ.config b)
      | .stop _ => true

/-- The same at every start of the pass. -/
def allInTurn (σ : Setup) (input : ScheduleInput) (backlog : ℕ) : ℕ → State → Bool
  | 0, _ => true
  | rounds + 1, s =>
    inTurn σ input backlog s s.pending [] &&
      match inspect σ input backlog s s.pending [] with
      | .start w p key db pending => allInTurn σ input backlog rounds (s.start σ w p key db pending)
      | _ => true

/-- The condition on a step. -/
def InTurn (σ : Setup) (s : State) : Action → Prop
  | .schedule input => s.control = .running →
      allInTurn σ input (State.queued s.pending + s.channel.length) s.pending.length s = true
  | _ => True

/-- What a step does to the order: packets routed, executions started. -/
inductive Event where
  | routed (w : WorkItem)
  | started (x : Task)

def events (s : State) (a : Action) (t : State) : List Event :=
  match a with
  | .head _ | .receive _ => (t.pending.drop s.pending.length).map .routed
  | .schedule _ => (t.running.drop s.running.length).map .started
  | _ => []

/-- The packets routed, in order. -/
def routedItems (log : List Event) : List WorkItem :=
  log.filterMap fun
    | .routed w => some w
    | .started _ => none

/-- The executions started, in order. -/
def startedTasks (log : List Event) : List Task :=
  log.filterMap fun
    | .started x => some x
    | .routed _ => none

/-- The lane of the packet of a row. -/
def rowLane (σ : Setup) (files : Files) (row : Row) : Option Lane :=
  match materialize σ.codec files row with
  | .ok stored =>
    itemLane σ.config ⟨stored.processorId, stored.packet, none, some stored.queueId, 0⟩
  | .error _ => none

/-- The condition on the rows a run starts from: of two rows in a lane, the one
enqueued later was created in a later second, or has the larger id. -/
def EnqueuedInOrder (σ : Setup) (files : Files) (db : Database) : Prop :=
  (db.queue.rows.filter fun r => r.flowId = σ.config.id && r.status = .pending).Pairwise
    fun row row' => sameLane (rowLane σ files row) (rowLane σ files row') = true →
      row.createdAt < row'.createdAt ∨
        row.createdAt = row'.createdAt ∧ row.queueId ≤ row'.queueId

/-- In every lane the executions start in the order in which their packets were
routed, and those of the recovered rows in the order of the table. -/
structure StartsInOrder (σ : Setup) (s₀ : State) (log : List Event) : Prop where
  marks : ((s₀.pending ++ routedItems log).map WorkItem.serial).Nodup
  routes : ∀ lane,
    (((startedTasks log).filter fun x => taskLane σ.config x = some lane).map
      fun x => (x.serial, x.queueId)).Sublist
    (((s₀.pending ++ routedItems log).filter fun w => itemLane σ.config w = some lane).map
      fun w => (w.serial, w.queueId))
  rows : ∀ lane db, s₀.db = some db →
    (((startedTasks log).filter fun x =>
      taskLane σ.config x = some lane && x.serial < s₀.next).filterMap Task.queueId).Sublist
    (db.queue.rows.map Row.queueId)

/-! ### Lanes -/

theorem itemLane_some {config : FlowConfig} {w : WorkItem} {l : Lane}
    (h : itemLane config w = some l) : ∃ p, config.definition? w.processorId = some p ∧
      partitionKeyOf p w = .ok l.2 ∧ l.1 = w.processorId := by
  unfold itemLane laneOf at h
  split at h
  · cases h
  next p hp =>
    split at h
    · cases h
    next key hkey =>
      simp only at h
      split at h <;> cases h <;> exact ⟨p, hp, hkey, rfl⟩

theorem itemLane_eq {config : FlowConfig} {w : WorkItem} {p : ProcessorConfig}
    {key : Option String} (hp : config.definition? w.processorId = some p)
    (hkey : partitionKeyOf p w = .ok key) :
    itemLane config w = laneOf config w.processorId key := by
  unfold itemLane
  simp only [hp, hkey]

theorem sameLane_iff {a b : Option Lane} : sameLane a b = true ↔ ∃ l, a = some l ∧ b = some l := by
  cases a with
  | none => simp [sameLane]
  | some l => simp [sameLane, eq_comm]

theorem sameLane_symm {a b : Option Lane} (h : sameLane a b = true) : sameLane b a = true := by
  obtain ⟨l, ha, hb⟩ := sameLane_iff.mp h
  exact sameLane_iff.mpr ⟨l, hb, ha⟩

theorem taskLane_taskOf {σ : Setup} {input : ScheduleInput} {s : State} {w : WorkItem}
    {p : ProcessorConfig} {key : Option String} {db : Option Database}
    (h : Startable σ input s w p key db) :
    taskLane σ.config (taskOf σ w p key) = itemLane σ.config w :=
  (itemLane_eq h.definition h.keyOf).symm

/-! ### The packet that starts is the first of its lane -/

section pass
variable {σ : Setup} {input : ScheduleInput} {backlog : ℕ} {s t : State}

theorem decide?_skip_iff {w : WorkItem} : decide? σ input backlog s w = .skip ↔
    (w.isSourceSeed = true ∧ σ.config.engine.queueCapacity ≤ backlog + s.running.length) ∨
    ∃ p, σ.config.definition? w.processorId = some p ∧
      (σ.config.engine.maxConcurrency < s.running.length + 1 + depthOf σ.config w.processorId ∨
        processorLimit p ≤ s.active w.processorId ∨
        ∃ k, partitionKeyOf p w = .ok (some k) ∧ k ∈ s.partitions w.processorId) := by
  unfold decide?
  by_cases hseed : w.isSourceSeed = true ∧ σ.config.engine.queueCapacity ≤ backlog + s.running.length
  · simp [hseed]
  · rw [if_neg (by simpa using hseed)]
    cases hp : σ.config.definition? w.processorId with
    | none => simp [hseed]
    | some p =>
      simp only [hseed, false_or, Option.some.injEq, exists_eq_left']
      by_cases hslots : σ.config.engine.maxConcurrency <
          s.running.length + 1 + depthOf σ.config w.processorId
      · simp [hslots]
      · by_cases hlimit : processorLimit p ≤ s.active w.processorId
        · simp [hlimit]
        · simp only [hslots, hlimit, if_false, false_or]
          cases hkey : partitionKeyOf p w with
          | error e => simp
          | ok key =>
            simp only
            split_ifs with hpart
            · cases key with
              | none => cases hpart
              | some k => simpa using hpart
            · -- the claim holds nothing back
              constructor
              · intro h
                split at h
                · split at h
                  · cases h
                  · split at h <;> cases h
                · cases h
              · rintro ⟨k, hk, hmem⟩
                cases hk
                exact absurd (by simpa using hmem) hpart

/-- A packet does not start while one of its lane is held back. -/
theorem not_held_of_start {f w : WorkItem} {p : ProcessorConfig} {key : Option String}
    {db : Option Database} (hst : decide? σ input backlog s w = .start p key db)
    (hmate : sameLane (itemLane σ.config f) (itemLane σ.config w) = true)
    (hseed : f.isSourceSeed = true → w.isSourceSeed = true) :
    decide? σ input backlog s f ≠ .skip := by
  intro hskip
  have hw := startable_of_decide hst
  obtain ⟨l, hlf, hlw⟩ := sameLane_iff.mp hmate
  obtain ⟨q, hq, hqkey, hqid⟩ := itemLane_some hlf
  obtain ⟨q', hq', hqkey', hqid'⟩ := itemLane_some hlw
  have hid : f.processorId = w.processorId := hqid.symm.trans hqid'
  have hkey : partitionKeyOf p f = .ok key := by
    rw [hid, hw.definition] at hq
    rw [hw.definition] at hq'
    cases hq
    cases hq'
    rw [hqkey, ← hqkey', hw.keyOf]
  have hnot : decide? σ input backlog s w ≠ .skip := by rw [hst]; simp
  refine hnot (decide?_skip_iff.mpr ?_)
  rcases decide?_skip_iff.mp hskip with ⟨hs, hfull⟩ | ⟨q, hq, h⟩
  · exact .inl ⟨hseed hs, hfull⟩
  · rw [hid] at hq h
    rw [hw.definition] at hq
    cases hq
    refine .inr ⟨p, hw.definition, ?_⟩
    rcases h with h | h | ⟨k, hk, hmem⟩
    · exact .inl h
    · exact .inr (.inl h)
    · rw [hkey] at hk
      exact .inr (.inr ⟨k, by rw [hw.keyOf, Except.ok.inj hk], hmem⟩)
/-- Where the packet that starts stood, and where the others went. -/
theorem inspect_split (rest skipped : List WorkItem)
    (hfree : ¬ σ.config.engine.maxConcurrency ≤ s.running.length) :
    (∃ kept, inspect σ input backlog s rest skipped = .idle (skipped ++ kept) ∧ kept.Sublist rest) ∨
    (∃ front w back kept p key db, rest = front ++ w :: back ∧ kept.Sublist front ∧
      inspect σ input backlog s rest skipped = .start w p key db (back ++ (skipped ++ kept)) ∧
      decide? σ input backlog s w = .start p key db ∧
      (∀ f ∈ kept, decide? σ input backlog s f = .skip) ∧
      (∀ f ∈ front, f ∉ kept → decide? σ input backlog s f = .drop) ∧
      (inTurn σ input backlog s rest skipped = true → ∀ f ∈ skipped ++ kept, ∀ b ∈ back,
        sameLane (itemLane σ.config f) (itemLane σ.config b) = false)) ∨
    ∃ exit, inspect σ input backlog s rest skipped = .stop exit := by
  induction rest generalizing skipped with
  | nil => exact .inl ⟨[], by simp [inspect], List.nil_sublist _⟩
  | cons x rest ih =>
    unfold inspect inTurn
    rw [if_neg hfree, if_neg hfree]
    cases hd : decide? σ input backlog s x with
    | skip =>
      rcases ih (skipped ++ [x]) with ⟨kept, h, hsub⟩ |
        ⟨front, w, back, kept, p, key, db, rfl, hsub, h, hst, hskip, hdrop, hturn⟩ | ⟨exit, h⟩
      · exact .inl ⟨x :: kept, by simp only [h, List.append_assoc, List.singleton_append],
          hsub.cons_cons x⟩
      · refine .inr (.inl ⟨x :: front, w, back, x :: kept, p, key, db, rfl, hsub.cons_cons x, ?_,
          hst, ?_, ?_, ?_⟩)
        · simp only [h, List.append_assoc, List.singleton_append]
        · exact List.forall_mem_cons.mpr ⟨hd, hskip⟩
        · intro f hf hno
          rcases List.mem_cons.mp hf with rfl | hf
          · exact absurd List.mem_cons_self hno
          · exact hdrop f hf fun hmem => hno (List.mem_cons_of_mem x hmem)
        · intro hin f hf
          exact hturn hin f (by simpa only [List.append_assoc, List.singleton_append] using hf)
      · exact .inr (.inr ⟨exit, h⟩)
    | drop =>
      rcases ih skipped with ⟨kept, h, hsub⟩ |
        ⟨front, w, back, kept, p, key, db, rfl, hsub, h, hst, hskip, hdrop, hturn⟩ | ⟨exit, h⟩
      · exact .inl ⟨kept, h, hsub.cons x⟩
      · refine .inr (.inl ⟨x :: front, w, back, kept, p, key, db, rfl, hsub.cons x, h, hst, hskip,
          fun f hf hno => ?_, hturn⟩)
        rcases List.mem_cons.mp hf with rfl | hf
        · exact hd
        · exact hdrop f hf hno
      · exact .inr (.inr ⟨exit, h⟩)
    | start p key db =>
      refine .inr (.inl ⟨[], x, rest, [], p, key, db, rfl, List.Sublist.refl _, ?_, hd, ?_, ?_, ?_⟩)
      · simp only [List.append_nil]
      · simp
      · simp
      · intro hin f hf b hb
        rw [List.append_nil] at hf
        simp only [List.all_eq_true, Bool.not_eq_true'] at hin
        exact hin f hf b hb
    | stop exit => exact .inr (.inr ⟨exit, rfl⟩)

end pass

/-! ### Queue and starts in order -/

/-- The queue and the tasks started so far are in the order of their lanes. -/
structure InOrder (config : FlowConfig) (s : State) (log : List Task) : Prop where
  queue : s.pending.Pairwise fun w w' =>
    sameLane (itemLane config w) (itemLane config w') = true → w.serial < w'.serial
  behind : ∀ x ∈ log, ∀ w ∈ s.pending,
    sameLane (taskLane config x) (itemLane config w) = true → x.serial < w.serial
  starts : log.Pairwise fun x y =>
    sameLane (taskLane config x) (taskLane config y) = true → x.serial < y.serial
  issued : (∀ w ∈ s.pending, w.serial < s.next) ∧ ∀ x ∈ log, x.serial < s.next
  seeds : ∀ f ∈ s.pending, f.isSourceSeed = true → ∀ w ∈ s.pending,
    w.processorId = f.processorId → w.isSourceSeed = true

section order
variable {σ : Setup} {input : ScheduleInput} {backlog : ℕ} {s t : State} {log : List Task}

/-- Packets may leave the queue. -/
theorem InOrder.sub (h : InOrder σ.config s log) (hsub : t.pending.Sublist s.pending)
    (hnext : s.next ≤ t.next) : InOrder σ.config t log where
  queue := h.queue.sublist hsub
  behind := fun x hx w hw => h.behind x hx w (hsub.subset hw)
  starts := h.starts
  issued := ⟨fun w hw => Nat.lt_of_lt_of_le (h.issued.1 w (hsub.subset hw)) hnext,
    fun x hx => Nat.lt_of_lt_of_le (h.issued.2 x hx) hnext⟩
  seeds := fun f hf hs w hw => h.seeds f (hsub.subset hf) hs w (hsub.subset hw)

/-- A start in turn. -/
theorem InOrder.start {front back kept : List WorkItem} {w : WorkItem} {p : ProcessorConfig}
    {key : Option String} {db : Option Database} (h : InOrder σ.config s log)
    (hpending : s.pending = front ++ w :: back) (hsub : kept.Sublist front)
    (hst : decide? σ input backlog s w = .start p key db)
    (hskip : ∀ f ∈ kept, decide? σ input backlog s f = .skip)
    (hturn : ∀ f ∈ kept, ∀ b ∈ back,
      sameLane (itemLane σ.config f) (itemLane σ.config b) = false) :
    InOrder σ.config (s.start σ w p key db (back ++ kept)) (log ++ [taskOf σ w p key]) := by
  have hlane := taskLane_taskOf (startable_of_decide hst)
  have hqueue := h.queue
  rw [hpending, List.pairwise_append, List.pairwise_cons] at hqueue
  obtain ⟨hfront, ⟨hahead, hback⟩, _⟩ := hqueue
  have hmem : ∀ {x : WorkItem}, x ∈ back ++ kept → x ∈ s.pending := by
    intro x hx
    rw [hpending]
    rcases List.mem_append.mp hx with hx | hx
    · exact List.mem_append_right _ (List.mem_cons_of_mem w hx)
    · exact List.mem_append_left _ (hsub.subset hx)
  have hw : w ∈ s.pending := by
    rw [hpending]
    exact List.mem_append_right _ List.mem_cons_self
  -- none of the packets held back in front is in the lane of the packet that starts
  have hkept : ∀ f ∈ kept, sameLane (itemLane σ.config f) (itemLane σ.config w) = false := by
    intro f hf
    refine Bool.eq_false_iff.mpr fun hmate => ?_
    refine not_held_of_start hst hmate (fun hs => ?_) (hskip f hf)
    obtain ⟨l, hlf, hlw⟩ := sameLane_iff.mp hmate
    obtain ⟨_, _, _, hid⟩ := itemLane_some hlf
    obtain ⟨_, _, _, hid'⟩ := itemLane_some hlw
    exact h.seeds f (hmem (List.mem_append_right _ hf)) hs w hw (hid'.symm.trans hid)
  constructor
  · refine List.pairwise_append.mpr ⟨hback, hfront.sublist hsub, fun b hb f hf hmate => ?_⟩
    have hno := hturn f hf b hb
    rw [sameLane_symm hmate] at hno
    cases hno
  · intro x hx y hy hmate
    rcases List.mem_append.mp hx with hx | hx
    · exact h.behind x hx y (hmem hy) hmate
    · rw [List.mem_singleton.mp hx] at hmate ⊢
      rw [hlane] at hmate
      rcases List.mem_append.mp hy with hy | hy
      · exact hahead y hy hmate
      · have hno := hkept y hy
        rw [sameLane_symm hmate] at hno
        cases hno
  · refine List.pairwise_append.mpr ⟨h.starts, List.pairwise_singleton _ _, fun x hx y hy hmate => ?_⟩
    rw [List.mem_singleton.mp hy] at hmate ⊢
    rw [hlane] at hmate
    exact h.behind x hx w hw hmate
  · refine ⟨fun y hy => h.issued.1 y (hmem hy), fun x hx => ?_⟩
    rcases List.mem_append.mp hx with hx | hx
    · exact h.issued.2 x hx
    · rw [List.mem_singleton.mp hx]
      exact h.issued.1 w hw
  · exact fun f hf hs y hy => h.seeds f (hmem hf) hs y (hmem hy)

/-- A pass whose starts are in turn. -/
theorem startAll_inOrder (rounds : ℕ) (s : State) (log : List Task)
    (h : InOrder σ.config s log) (hturn : allInTurn σ input backlog rounds s = true) :
    ∃ tasks, (startAll σ input backlog rounds s).running = s.running ++ tasks ∧
      InOrder σ.config (startAll σ input backlog rounds s) (log ++ tasks) := by
  induction rounds generalizing s log with
  | zero =>
    have hidle : InOrder σ.config { s with phase := .checking } log :=
      h.sub (List.Sublist.refl _) (Nat.le_refl _)
    exact ⟨[], (List.append_nil _).symm, by rwa [List.append_nil]⟩
  | succ rounds ih =>
    unfold allInTurn at hturn
    unfold startAll
    rw [Bool.and_eq_true] at hturn
    by_cases hfull : σ.config.engine.maxConcurrency ≤ s.running.length
    · have hidle : inspect σ input backlog s s.pending [] = .idle s.pending := by
        cases s.pending with
        | nil => rfl
        | cons w rest =>
          unfold inspect
          rw [if_pos hfull, List.append_nil]
      have hrest : InOrder σ.config { s with pending := s.pending, phase := .checking } log :=
        h.sub (List.Sublist.refl _) (Nat.le_refl _)
      rw [hidle]
      exact ⟨[], (List.append_nil _).symm, by rwa [List.append_nil]⟩
    · rcases @inspect_split σ input backlog s s.pending [] hfull with
        ⟨kept, hi, hsub⟩ | ⟨front, w, back, kept, p, key, db, hp, hsub, hi, hst, hskip, _, hin⟩ |
        ⟨exit, hi⟩
      · have hrest : InOrder σ.config { s with pending := [] ++ kept, phase := .checking } log :=
          h.sub hsub (Nat.le_refl _)
        rw [hi]
        exact ⟨[], (List.append_nil _).symm, by rwa [List.append_nil]⟩
      · rw [hi] at hturn ⊢
        have hstart := h.start hp hsub hst hskip (hin hturn.1)
        obtain ⟨tasks, hrun, hord⟩ := ih _ _ hstart hturn.2
        refine ⟨taskOf σ w p key :: tasks, ?_, ?_⟩
        · rw [List.nil_append, hrun]
          simp only [State.start, List.append_assoc, List.singleton_append]
        · rw [List.nil_append]
          simpa only [List.append_assoc, List.singleton_append] using hord
      · have hstop : InOrder σ.config { s with phase := .ended exit } log :=
          h.sub (List.Sublist.refl _) (Nat.le_refl _)
        rw [hi]
        exact ⟨[], (List.append_nil _).symm, by rwa [List.append_nil]⟩

/-- Packets routed while the queue and the starts are in order. -/
theorem InOrder.push {items : List WorkItem} (h : InOrder σ.config s log)
    (hpending : t.pending = s.pending ++ items) (hnext : s.next ≤ t.next)
    (hsorted : items.Pairwise fun w w' => w.serial < w'.serial)
    (hitems : ∀ w ∈ items, s.next ≤ w.serial ∧ w.serial < t.next ∧ w.isSourceSeed = false ∧
      ∀ f ∈ s.pending, f.isSourceSeed = true → w.processorId ≠ f.processorId) :
    InOrder σ.config t log := by
  constructor
  · have hnew : items.Pairwise fun w w' =>
        sameLane (itemLane σ.config w) (itemLane σ.config w') = true → w.serial < w'.serial := by
      refine hsorted.imp ?_
      intro w w' hlt _
      exact hlt
    rw [hpending]
    refine List.pairwise_append.mpr ⟨h.queue, hnew, fun w hw w' hw' _ => ?_⟩
    have hold := h.issued.1 w hw
    have hnew := (hitems w' hw').1
    omega
  · intro x hx w hw hmate
    rw [hpending] at hw
    rcases List.mem_append.mp hw with hw | hw
    · exact h.behind x hx w hw hmate
    · have hold := h.issued.2 x hx
      have hnew := (hitems w hw).1
      omega
  · exact h.starts
  · rw [hpending]
    refine ⟨fun w hw => ?_, fun x hx => Nat.lt_of_lt_of_le (h.issued.2 x hx) hnext⟩
    rcases List.mem_append.mp hw with hw | hw
    · exact Nat.lt_of_lt_of_le (h.issued.1 w hw) hnext
    · exact (hitems w hw).2.1
  · rw [hpending]
    intro f hf hs w hw hid
    rcases List.mem_append.mp hf with hf | hf
    · rcases List.mem_append.mp hw with hw | hw
      · exact h.seeds f hf hs w hw hid
      · exact absurd hid ((hitems w hw).2.2.2 f hf hs)
    · rw [(hitems f hf).2.2.1] at hs
      cases hs

end order

/-! ### Arrivals -/

/-- Every packet of the queue and every execution is one of those the run began
with or of those routed since, `routes`. -/
structure Arrivals (config : FlowConfig) (s₀ s : State) (routes : List WorkItem)
    (starts : List Task) : Prop where
  serials : (s₀.pending ++ routes).Pairwise fun w w' => w.serial < w'.serial
  issued : ∀ w ∈ s₀.pending ++ routes, w.serial < s.next
  first : ∀ w ∈ s₀.pending, w.serial < s₀.next
  later : ∀ w ∈ routes, s₀.next ≤ w.serial
  next : s₀.next ≤ s.next
  queue : ∀ w ∈ s.pending, w ∈ s₀.pending ++ routes
  starts : ∀ x ∈ starts, ∃ w ∈ s₀.pending ++ routes, w.serial = x.serial ∧
    w.queueId = x.queueId ∧ itemLane config w = taskLane config x

section arrivals
variable {σ : Setup} {input : ScheduleInput} {backlog : ℕ} {s₀ s t : State}
  {routes : List WorkItem} {starts : List Task}

theorem Publishes.items {e : ProcessorEmission} {ks : List ConnectionConfig}
    (h : Publishes σ e s ks t) : ∃ items, t.pending = s.pending ++ items ∧ s.next ≤ t.next ∧
      (items.Pairwise fun w w' => w.serial < w'.serial) ∧
      ∀ w ∈ items, s.next ≤ w.serial ∧ w.serial < t.next ∧ w.isSourceSeed = false ∧
        ∃ k ∈ ks, w.processorId = k.target := by
  have hcons : ∀ {w : WorkItem} {ks : List ConnectionConfig} {k : ConnectionConfig} {next : ℕ}
      {items : List WorkItem} {t : State}, w.serial = next → w.isSourceSeed = false →
      w.processorId = k.target → next + 1 ≤ t.next →
      (items.Pairwise fun w w' => w.serial < w'.serial) →
      (∀ w ∈ items, next + 1 ≤ w.serial ∧ w.serial < t.next ∧ w.isSourceSeed = false ∧
        ∃ k ∈ ks, w.processorId = k.target) →
      ((w :: items).Pairwise fun w w' => w.serial < w'.serial) ∧
      ∀ v ∈ w :: items, next ≤ v.serial ∧ v.serial < t.next ∧ v.isSourceSeed = false ∧
        ∃ j ∈ k :: ks, v.processorId = j.target := by
    intro w ks k next items t hserial hseed htarget hnext hsorted hitems
    refine ⟨List.pairwise_cons.mpr ⟨fun v hv => ?_, hsorted⟩, fun v hv => ?_⟩
    · have hv := (hitems v hv).1
      omega
    · rcases List.mem_cons.mp hv with rfl | hv
      · exact ⟨by omega, by omega, hseed, k, List.mem_cons_self, htarget⟩
      · obtain ⟨hge, hlt, hs, j, hj, hid⟩ := hitems v hv
        exact ⟨by omega, hlt, hs, j, List.mem_cons_of_mem k hj, hid⟩
  induction h with
  | nil s => exact ⟨[], (List.append_nil _).symm, Nat.le_refl _, List.Pairwise.nil, by simp⟩
  | @volatile s t k ks _ _ ih =>
    obtain ⟨items, hp, hnext, hsorted, hitems⟩ := ih
    have hnext' : s.next + 1 ≤ t.next := hnext
    obtain ⟨hs, hi⟩ := hcons (w := ⟨k.target, e.packet, some k.connectionId, none, s.next⟩)
      (k := k) rfl rfl rfl hnext' hsorted hitems
    exact ⟨_, by rw [hp]; simp only [State.push, List.append_assoc, List.singleton_append],
      by omega, hs, hi⟩
  | @durable s t k ks now queueId db db' _ _ _ ih =>
    obtain ⟨items, hp, hnext, hsorted, hitems⟩ := ih
    have hnext' : s.next + 1 ≤ t.next := hnext
    obtain ⟨hs, hi⟩ := hcons (w := ⟨k.target, e.packet, some k.connectionId, some queueId, s.next⟩)
      (k := k) rfl rfl rfl hnext' hsorted hitems
    exact ⟨_, by rw [hp]; simp only [State.pushRow, State.push, List.append_assoc,
      List.singleton_append], by omega, hs, hi⟩

/-- A call of `route_emission` appends to the queue. -/
theorem route_items (hcoh : Coherent σ s) (input : RouteInput) (e : ProcessorEmission)
    (next : Phase) : ∃ items,
      (holdUnrouted e next (routeEmission σ input s e)).pending = s.pending ++ items ∧
      s.next ≤ (holdUnrouted e next (routeEmission σ input s e)).next ∧
      (items.Pairwise fun w w' => w.serial < w'.serial) ∧
      ∀ w ∈ items, s.next ≤ w.serial ∧
        w.serial < (holdUnrouted e next (routeEmission σ input s e)).next ∧
        w.isSourceSeed = false ∧
        ∀ f ∈ s.pending, f.isSourceSeed = true → w.processorId ≠ f.processorId := by
  have htarget : ∀ {ks : List ConnectionConfig} {t : State}, Publishes σ e s ks t →
      (∀ k ∈ ks, k ∈ σ.config.connections) → ∃ items, t.pending = s.pending ++ items ∧
      s.next ≤ t.next ∧ (items.Pairwise fun w w' => w.serial < w'.serial) ∧
      ∀ w ∈ items, s.next ≤ w.serial ∧ w.serial < t.next ∧ w.isSourceSeed = false ∧
        ∀ f ∈ s.pending, f.isSourceSeed = true → w.processorId ≠ f.processorId := by
    intro ks t hpub hks
    obtain ⟨items, hp, hnext, hsorted, hitems⟩ := hpub.items
    refine ⟨items, hp, hnext, hsorted, fun w hw => ?_⟩
    obtain ⟨hge, hlt, hs, k, hk, hid⟩ := hitems w hw
    refine ⟨hge, hlt, hs, fun f hf hseed heq => ?_⟩
    exact hcoh.backlog.seeds f hf hseed k (hks k hk) (hid.symm.trans heq)
  have hout : ∀ k ∈ σ.config.outgoing e.processorId e.relationship, k ∈ σ.config.connections :=
    fun k hk => (List.mem_filter.mp hk).1
  rcases routeEmission_cases σ input s e with
    ⟨u, hu, hp⟩ | ⟨hu, _⟩ | ⟨error, hu, _⟩ | ⟨error, u, v, done, hu, hdone, hp, hleft⟩ <;> rw [hu]
  · obtain ⟨items, hitems⟩ := htarget hp hout
    exact ⟨items, hitems⟩
  · exact ⟨[], (List.append_nil _).symm, Nat.le_refl _, List.Pairwise.nil, by simp⟩
  · exact ⟨[], (List.append_nil _).symm, Nat.le_refl _, List.Pairwise.nil, by simp⟩
  · have hsame := hleft.frame
    have hpend : v.pending = u.pending := by rw [hsame]
    have hnext : v.next = u.next := by rw [hsame]
    obtain ⟨items, hitems⟩ := htarget hp fun k hk => hout k (hdone.before.subset hk)
    exact ⟨items, by simpa only [holdUnrouted, hpend, hnext] using hitems⟩

/-- What a pass starts was in the queue. -/
theorem Schedules.origin (h : Schedules σ input backlog s t) : t.next = s.next ∧
    t.pending ⊆ s.pending ∧ ∃ tasks, t.running = s.running ++ tasks ∧
      ∀ x ∈ tasks, ∃ w ∈ s.pending, w.serial = x.serial ∧ w.queueId = x.queueId ∧
        itemLane σ.config w = taskLane σ.config x := by
  induction h with
  | @idle s pending dropped hperm _ _ =>
    refine ⟨rfl, ?_, [], (List.append_nil _).symm, by simp⟩
    exact fun w hw => hperm.subset (List.mem_append_left _ hw)
  | @start s t w p key db pending dropped hperm _ hst _ ih =>
    obtain ⟨hnext, hsub, tasks, hrun, htasks⟩ := ih
    have hmem : ∀ x ∈ pending, x ∈ s.pending := fun x hx =>
      hperm.subset (List.mem_append_left _ (List.mem_cons_of_mem w hx))
    refine ⟨hnext, fun x hx => hmem x (hsub hx), taskOf σ w p key :: tasks, ?_, ?_⟩
    · rw [hrun]
      simp only [State.start, List.append_assoc, List.singleton_append]
    · refine List.forall_mem_cons.mpr ⟨⟨w, hperm.subset (by simp), rfl, rfl,
        (taskLane_taskOf hst).symm⟩, fun x hx => ?_⟩
      obtain ⟨v, hv, hrest⟩ := htasks x hx
      exact ⟨v, hmem v hv, hrest⟩
  | stop => exact ⟨rfl, fun _ hw => hw, [], (List.append_nil _).symm, by simp⟩

/-- Nothing is routed and nothing starts. -/
theorem Arrivals.frame (h : Arrivals σ.config s₀ s routes starts) (hsub : t.pending ⊆ s.pending)
    (hnext : s.next ≤ t.next) : Arrivals σ.config s₀ t routes starts where
  serials := h.serials
  issued := fun w hw => Nat.lt_of_lt_of_le (h.issued w hw) hnext
  first := h.first
  later := h.later
  next := Nat.le_trans h.next hnext
  queue := fun w hw => h.queue w (hsub hw)
  starts := h.starts

theorem Arrivals.push {items : List WorkItem} (h : Arrivals σ.config s₀ s routes starts)
    (hpending : t.pending = s.pending ++ items) (hnext : s.next ≤ t.next)
    (hsorted : items.Pairwise fun w w' => w.serial < w'.serial)
    (hitems : ∀ w ∈ items, s.next ≤ w.serial ∧ w.serial < t.next) :
    Arrivals σ.config s₀ t (routes ++ items) starts := by
  have hnow := h.next
  constructor
  · rw [← List.append_assoc]
    refine List.pairwise_append.mpr ⟨h.serials, hsorted, fun w hw w' hw' => ?_⟩
    have hold := h.issued w hw
    have hnew := (hitems w' hw').1
    omega
  · rw [← List.append_assoc]
    intro w hw
    rcases List.mem_append.mp hw with hw | hw
    · exact Nat.lt_of_lt_of_le (h.issued w hw) hnext
    · exact (hitems w hw).2
  · exact h.first
  · intro w hw
    rcases List.mem_append.mp hw with hw | hw
    · exact h.later w hw
    · have hnew := (hitems w hw).1
      omega
  · omega
  · intro w hw
    rw [← List.append_assoc]
    rw [hpending] at hw
    rcases List.mem_append.mp hw with hw | hw
    · exact List.mem_append_left _ (h.queue w hw)
    · exact List.mem_append_right _ hw
  · intro x hx
    obtain ⟨w, hw, hrest⟩ := h.starts x hx
    exact ⟨w, by rw [← List.append_assoc]; exact List.mem_append_left _ hw, hrest⟩

theorem Arrivals.start {tasks : List Task} (h : Arrivals σ.config s₀ s routes starts)
    (hsub : t.pending ⊆ s.pending) (hnext : s.next ≤ t.next)
    (htasks : ∀ x ∈ tasks, ∃ w ∈ s.pending, w.serial = x.serial ∧ w.queueId = x.queueId ∧
      itemLane σ.config w = taskLane σ.config x) :
    Arrivals σ.config s₀ t routes (starts ++ tasks) := by
  have hframe := h.frame hsub hnext
  refine ⟨hframe.serials, hframe.issued, hframe.first, hframe.later, hframe.next, hframe.queue,
    fun x hx => ?_⟩
  rcases List.mem_append.mp hx with hx | hx
  · exact h.starts x hx
  · obtain ⟨w, hw, hrest⟩ := htasks x hx
    exact ⟨w, h.queue w hw, hrest⟩

end arrivals

/-! ### One step -/

section step
variable {σ : Setup} {s₀ s t : State} {log : List Event}

/-- Queue, starts and arrivals after the events `log`. -/
structure Ordered (σ : Setup) (s₀ s : State) (log : List Event) : Prop where
  order : InOrder σ.config s (startedTasks log)
  arrivals : Arrivals σ.config s₀ s (routedItems log) (startedTasks log)

theorem Ordered.frame (h : Ordered σ s₀ s log) (hsub : t.pending.Sublist s.pending)
    (hnext : s.next ≤ t.next) : Ordered σ s₀ t (log ++ []) := by
  rw [List.append_nil]
  exact ⟨h.order.sub hsub hnext, h.arrivals.frame hsub.subset hnext⟩

theorem Ordered.push (h : Ordered σ s₀ s log) {items : List WorkItem}
    (hpending : t.pending = s.pending ++ items) (hnext : s.next ≤ t.next)
    (hsorted : items.Pairwise fun w w' => w.serial < w'.serial)
    (hitems : ∀ w ∈ items, s.next ≤ w.serial ∧ w.serial < t.next ∧ w.isSourceSeed = false ∧
      ∀ f ∈ s.pending, f.isSourceSeed = true → w.processorId ≠ f.processorId) :
    Ordered σ s₀ t (log ++ (t.pending.drop s.pending.length).map .routed) := by
  have hroutes : routedItems (log ++ items.map .routed) = routedItems log ++ items := by
    simp only [routedItems, List.filterMap_append, List.filterMap_map, Function.comp_def,
      List.filterMap_some]
  have hstarts : startedTasks (log ++ items.map .routed) = startedTasks log := by
    simp [startedTasks, List.filterMap_map]
  have hdrop : t.pending.drop s.pending.length = items := by rw [hpending, List.drop_left]
  rw [hdrop]
  refine ⟨?_, ?_⟩
  · rw [hstarts]
    exact h.order.push hpending hnext hsorted hitems
  · rw [hroutes, hstarts]
    exact h.arrivals.push hpending hnext hsorted fun w hw => ⟨(hitems w hw).1, (hitems w hw).2.1⟩

theorem step_ordered {a : Action} (hcoh : Coherent σ s) (h : Ordered σ s₀ s log)
    (hok : InTurn σ s a) (hs : step σ s a = some t) : Ordered σ s₀ t (log ++ events s a t) := by
  obtain ⟨_, htr⟩ := step_transition hs
  cases htr with
  | control | abort | acquire | refill | finish | giveUp | select | stall | maintain
    | deadlock => exact h.frame (List.Sublist.refl _) (Nat.le_refl _)
  | emit _ _ _ hemit =>
    unfold State.emit at hemit
    simp only at hemit
    split_ifs at hemit <;> cases hemit <;> exact h.frame (List.Sublist.refl _) (Nat.le_succ _)
  | leave | resume =>
    simp only [events, List.drop_length, List.map_nil]
    exact h.frame (List.Sublist.refl _) (Nat.le_refl _)
  | @route input e _ _ =>
    have hc : Coherent σ { s with deferred := none } :=
      ⟨hcoh.roster, hcoh.backlog, hcoh.channel, hcoh.permits⟩
    obtain ⟨items, hp, hnext, hsorted, hitems⟩ := route_items hc input e .scheduling
    exact h.push hp hnext hsorted hitems
  | @receive input e rest _ _ hchan =>
    have hlen := hcoh.channel
    rw [hchan, List.length_cons] at hlen
    have hc : Coherent σ { s with channel := rest } :=
      ⟨hcoh.roster, hcoh.backlog, Nat.le_of_succ_le hlen, hcoh.permits⟩
    obtain ⟨items, hp, hnext, hsorted, hitems⟩ := route_items hc input e .head
    exact h.push hp hnext hsorted hitems
  | @schedule input =>
    rcases scheduleAvailable_cases σ input s with ⟨_, heq⟩ | ⟨hrun, hsch⟩
    · rw [heq]
      simp only [events, List.drop_length, List.map_nil]
      exact h.frame (List.Sublist.refl _) (Nat.le_refl _)
    · have hturn := hok hrun
      obtain ⟨tasks, htasks, hord⟩ := startAll_inOrder _ _ _ h.order hturn
      have hall : scheduleAvailable σ input s =
          startAll σ input (State.queued s.pending + s.channel.length) s.pending.length s := by
        rw [scheduleAvailable, if_neg (by simp [hrun])]
      rw [← hall] at htasks hord
      obtain ⟨hnext, hsub, tasks', htasks', horigin⟩ := hsch.origin
      have heq : tasks' = tasks := List.append_cancel_left (htasks'.symm.trans htasks)
      rw [heq] at horigin
      have hstarts : startedTasks (log ++ tasks.map .started) = startedTasks log ++ tasks := by
        simp only [startedTasks, List.filterMap_append, List.filterMap_map, Function.comp_def,
          List.filterMap_some]
      have hroutes : routedItems (log ++ tasks.map .started) = routedItems log := by
        simp [routedItems, List.filterMap_map]
      simp only [events, htasks, List.drop_left]
      refine ⟨?_, ?_⟩
      · rw [hstarts]
        exact hord
      · rw [hstarts, hroutes]
        exact h.arrivals.start hsub (Nat.le_of_eq hnext.symm) horigin
  | join _ hx =>
    have hpend : ∀ {i : ℕ} {x : Task} {now : ℤ}, (s.complete i x now).pending = s.pending := by
      intro i x now
      unfold State.complete
      split <;> rfl
    refine h.frame ?_ (Nat.le_of_eq (complete_frame s _ _ _).2.2.1.symm)
    rw [hpend]

end step

/-! ### The start of a run -/

theorem reserveStored_serials {codec : Codec} {memory : MemoryLimiter} {serial : ℕ}
    {stored : List StoredWork} {items : List WorkItem}
    (h : reserveStored codec memory serial stored = .ok items) :
    (items.Pairwise fun w w' => w.serial < w'.serial) ∧
      ∀ w ∈ items, serial ≤ w.serial ∧ w.serial < serial + items.length := by
  induction stored generalizing memory serial items with
  | nil =>
    cases h
    exact ⟨List.Pairwise.nil, by simp⟩
  | cons stored rest ih =>
    unfold reserveStored at h
    split at h
    · cases h
    · split at h
      · cases h
      next hrest =>
        cases h
        obtain ⟨hsorted, hbounds⟩ := ih hrest
        refine ⟨List.pairwise_cons.mpr ⟨fun w hw => ?_, hsorted⟩, fun w hw => ?_⟩
        · exact Nat.lt_of_succ_le (hbounds w hw).1
        · rw [List.length_cons]
          rcases List.mem_cons.mp hw with rfl | hw
          · exact ⟨Nat.le_refl serial, Nat.lt_add_of_pos_right (Nat.succ_pos _)⟩
          · have hw := hbounds w hw
            omega

theorem sourceSeeds_serials (config : FlowConfig) (packetId : ℕ → String) :
    ((sourceSeeds config packetId).Pairwise fun w w' => w.serial < w'.serial) ∧
      ∀ w ∈ sourceSeeds config packetId, w.serial < config.processors.length := by
  constructor
  · refine List.pairwise_iff_getElem.mpr fun i j hi hj hlt => ?_
    simpa only [sourceSeeds, List.getElem_mapIdx] using hlt
  · intro w hw
    obtain ⟨i, hi, rfl⟩ := List.mem_mapIdx.mp hw
    exact Nat.lt_of_lt_of_le hi (List.length_filter_le _ _)

theorem itemLane_congr {config : FlowConfig} {w w' : WorkItem}
    (hid : w.processorId = w'.processorId) (hpacket : w.packet = w'.packet) :
    itemLane config w = itemLane config w' := by
  simp only [itemLane, partitionKeyOf, hid, hpacket]

/-- In a lane the rows are recovered in the order of the table. -/
theorem pendingRows_lane {σ : Setup} {files : Files} {db : Database}
    (h : EnqueuedInOrder σ files db) (lane : Lane) :
    (((pendingRows db σ.config.id).filter fun row => rowLane σ files row = some lane).map
      Row.queueId).Sublist (db.queue.rows.map Row.queueId) := by
  have hsub := h.sublist (List.filter_sublist (p := fun row => rowLane σ files row = some lane))
  have hsorted : ((db.queue.rows.filter fun r => r.flowId = σ.config.id && r.status = .pending).filter
      fun row => rowLane σ files row = some lane).Pairwise fun a b => rowBefore a b = true := by
    refine hsub.imp_of_mem ?_
    intro a b ha hb hab
    have ha := (List.mem_filter.mp ha).2
    have hb := (List.mem_filter.mp hb).2
    rw [decide_eq_true_eq] at ha hb
    simpa [rowBefore] using hab (sameLane_iff.mpr ⟨lane, ha, hb⟩)
  have hrows := List.sublist_insertionSort hsorted List.filter_sublist
  have hlane := hrows.filter fun row => decide (rowLane σ files row = some lane)
  rw [List.filter_filter] at hlane
  simp only [Bool.and_self] at hlane
  have hlen := ((pendingRows_perm db σ.config.id).filter
    fun row => decide (rowLane σ files row = some lane)).length_eq
  have hsame : (pendingRows db σ.config.id).filter (fun row => rowLane σ files row = some lane) =
      (db.queue.rows.filter fun r => r.flowId = σ.config.id && r.status = .pending).filter
        fun row => rowLane σ files row = some lane := (hlane.eq_of_length hlen.symm).symm
  rw [hsame]
  exact (List.filter_sublist.trans List.filter_sublist).map Row.queueId

/-- The recovered packets of a lane stand in the queue in the order of the table. -/
theorem recover_lane {σ : Setup} {l : Launch} {items : List WorkItem} {db : Database}
    (h : recover σ l = (.ok items, db)) (hrows : EnqueuedInOrder σ l.files db) (lane : Lane) :
    ((items.filter fun w => itemLane σ.config w = some lane).filterMap WorkItem.queueId).Sublist
      (db.queue.rows.map Row.queueId) := by
  refine List.Sublist.trans ?_ (pendingRows_lane hrows lane)
  have hall := recover_ok h
  clear h
  generalize pendingRows db σ.config.id = rows at hall
  induction hall with
  | nil => exact List.Sublist.refl _
  | @cons row w rows items hrow _ ih =>
    obtain ⟨stored, hm, hid, hpacket, _, hq⟩ := hrow
    have hlane : rowLane σ l.files row = itemLane σ.config w := by
      rw [rowLane, hm]
      exact itemLane_congr hid.symm hpacket.symm
    rw [List.filter_cons, List.filter_cons, hlane]
    split_ifs with hmate
    · rw [List.filterMap_cons, hq, List.map_cons, (materialize_ok σ.codec hm).1]
      exact ih.cons_cons _
    · exact ih

theorem recover_serials {σ : Setup} {l : Launch} {items : List WorkItem} {db : Database}
    (h : recover σ l = (.ok items, db)) :
    (items.Pairwise fun w w' => w.serial < w'.serial) ∧ (∀ w ∈ items, w.serial < items.length) ∧
      ∀ w ∈ items, w.queueId.isSome = true := by
  have hall := recover_ok h
  unfold recover at h
  simp only at h
  split at h
  · cases h
  next stored hstored =>
    obtain ⟨hitems, rfl⟩ := Prod.mk.inj h
    obtain ⟨hsorted, hbound⟩ := reserveStored_serials hitems
    refine ⟨hsorted, fun w hw => ?_, fun w hw => ?_⟩
    · have hw := (hbound w hw).2
      omega
    · obtain ⟨i, hi, rfl⟩ := List.getElem_of_mem hw
      have hrow := List.forall₂_iff_get.mp hall
      obtain ⟨stored, _, _, _, _, hq⟩ := hrow.2 i (by rw [hrow.1]; exact hi) hi
      simp only [List.get_eq_getElem] at hq
      rw [hq]
      rfl

theorem start_ordered {σ : Setup} {l : Launch} {s : State} (h : start σ l = .ok s) :
    Ordered σ s s [] ∧ ∀ db, s.db = some db → EnqueuedInOrder σ l.files db → ∀ lane,
      ((s.pending.filter fun w => itemLane σ.config w = some lane).filterMap
        WorkItem.queueId).Sublist (db.queue.rows.map Row.queueId) := by
  have hordered : ∀ {s : State}, Coherent σ s →
      (s.pending.Pairwise fun w w' => w.serial < w'.serial) →
      (∀ w ∈ s.pending, w.serial < s.next) →
      (∀ f ∈ s.pending, f.isSourceSeed = true → ∀ w ∈ s.pending, w.isSourceSeed = true) →
      Ordered σ s s [] := by
    intro s hcoh hsorted hissued hseeds
    have hqueue : s.pending.Pairwise fun w w' =>
        sameLane (itemLane σ.config w) (itemLane σ.config w') = true → w.serial < w'.serial := by
      refine hsorted.imp ?_
      intro w w' hlt _
      exact hlt
    refine ⟨⟨hqueue, by simp [startedTasks], List.Pairwise.nil, ⟨hissued, by simp [startedTasks]⟩,
      fun f hf hs w hw _ => hseeds f hf hs w hw⟩, ?_⟩
    have hnil : s.pending ++ routedItems [] = s.pending := List.append_nil _
    exact ⟨by rwa [hnil], by rwa [hnil], hissued, by simp [routedItems], Nat.le_refl _,
      fun w hw => by rwa [hnil], by simp [startedTasks]⟩
  have hcoh := start_coherent h
  have hseeds : ∀ db, Coherent σ (.init σ l.packetId [] db) →
      Ordered σ (.init σ l.packetId [] db) (.init σ l.packetId [] db) [] := by
    intro db hcoh
    obtain ⟨hsorted, hbound⟩ := sourceSeeds_serials σ.config l.packetId
    refine hordered hcoh hsorted (fun w hw => ?_) fun f _ _ w hw => ?_
    · exact Nat.lt_of_lt_of_le (hbound w hw) (Nat.le_add_left _ _)
    · obtain ⟨i, hi, rfl⟩ := List.mem_mapIdx.mp hw
      rfl
  unfold start at h
  split at h
  · split at h
    · cases h
    next recovered db hrec =>
      cases h
      cases recovered with
      | nil =>
        refine ⟨hseeds _ hcoh, fun db' _ _ lane => ?_⟩
        have hnone : ((sourceSeeds σ.config l.packetId).filter fun w =>
            itemLane σ.config w = some lane).filterMap WorkItem.queueId = [] := by
          refine List.filterMap_eq_nil_iff.mpr fun w hw => ?_
          exact (sourceSeeds_mem (List.mem_filter.mp hw).1).1
        have hnil := List.nil_sublist (db'.queue.rows.map Row.queueId)
        rwa [← hnone] at hnil
      | cons w rest =>
        obtain ⟨hsorted, hbound, hqueued⟩ := recover_serials hrec
        refine ⟨hordered hcoh hsorted (fun v hv => ?_) fun f hf hs => ?_, fun db' hdb' hrows => ?_⟩
        · exact Nat.lt_of_lt_of_le (hbound v hv) (Nat.le_add_right _ _)
        · have hnone : f.isSourceSeed = false := by
            rw [WorkItem.isSourceSeed, Option.isNone_eq_false_iff.mpr (hqueued f hf), Bool.and_false]
          rw [hs] at hnone
          cases hnone
        · cases hdb'
          exact recover_lane hrec hrows
  · cases h
    refine ⟨hseeds _ hcoh, fun db hdb => ?_⟩
    cases hdb

/-! ### Runs -/

section runs
variable {σ : Setup} {l : Launch} {s₀ s : State} {log : List Event}

theorem logged_ordered (hstart : start σ l = .ok s₀)
    (h : (engine σ).Logged (InTurn σ) events s₀ s log) :
    (∃ exit, s.phase = .ended exit) ∧ (∃ s', Ordered σ s₀ s' log) ∨
      Coherent σ s ∧ Ordered σ s₀ s log := by
  refine h.invariant (I := fun s log => (∃ exit, s.phase = .ended exit) ∧
    (∃ s', Ordered σ s₀ s' log) ∨ Coherent σ s ∧ Ordered σ s₀ s log) ?_ ?_
  · exact .inr ⟨start_coherent hstart, (start_ordered hstart).1⟩
  · rintro s a t log (⟨⟨exit, hend⟩, _⟩ | ⟨hcoh, hord⟩) hok hs
    · exact absurd hend ((step_transition hs).1 exit)
    · have hnext := step_ordered hcoh hord hok hs
      rcases step_coherent hcoh hs with hend | hcoh'
      · exact .inl ⟨hend, t, hnext⟩
      · exact .inr ⟨hcoh', hnext⟩

/-- Increasing serials put the starts of a lane in the order of the arrivals. -/
theorem Ordered.routes (h : Ordered σ s₀ s log) (lane : Lane) :
    (((startedTasks log).filter fun x => taskLane σ.config x = some lane).map
      fun x => (x.serial, x.queueId)).Sublist
    (((s₀.pending ++ routedItems log).filter fun w => itemLane σ.config w = some lane).map
      fun w => (w.serial, w.queueId)) := by
  let before : ℕ × Option String → ℕ × Option String → Prop := fun a b => a.1 < b.1
  have hanti : Std.Antisymm before := ⟨fun a b hab hba => absurd hab (Nat.lt_asymm hba)⟩
  have hstarts : (((startedTasks log).filter fun x => taskLane σ.config x = some lane).map
      fun x => (x.serial, x.queueId)).Pairwise before := by
    refine List.pairwise_map.mpr ((h.order.starts.sublist List.filter_sublist).imp_of_mem ?_)
    intro x y hx hy hlt
    have hx := (List.mem_filter.mp hx).2
    have hy := (List.mem_filter.mp hy).2
    rw [decide_eq_true_eq] at hx hy
    exact hlt (sameLane_iff.mpr ⟨lane, hx, hy⟩)
  have harrivals : (((s₀.pending ++ routedItems log).filter
      fun w => itemLane σ.config w = some lane).map
        fun w => (w.serial, w.queueId)).Pairwise before :=
    List.pairwise_map.mpr (h.arrivals.serials.sublist List.filter_sublist)
  refine List.sublist_of_subperm_of_pairwise (List.subperm_of_subset ?_ ?_) hstarts harrivals
  · refine hstarts.imp ?_
    rintro a _ hlt rfl
    exact Nat.lt_irrefl a.1 hlt
  · intro a ha
    obtain ⟨x, hx, rfl⟩ := List.mem_map.mp ha
    rw [List.mem_filter, decide_eq_true_eq] at hx
    obtain ⟨w, hw, hserial, hq, hlane⟩ := h.arrivals.starts x hx.1
    refine List.mem_map.mpr ⟨w, List.mem_filter.mpr ⟨hw, ?_⟩, by rw [hserial, hq]⟩
    rw [decide_eq_true_eq, hlane]
    exact hx.2

/-- The started packets of a lane that the run began with. -/
theorem Ordered.recovered (h : Ordered σ s₀ s log) (lane : Lane) :
    (((startedTasks log).filter fun x =>
      taskLane σ.config x = some lane && x.serial < s₀.next).filterMap Task.queueId).Sublist
    ((s₀.pending.filter fun w => itemLane σ.config w = some lane).filterMap WorkItem.queueId) := by
  have hroutes := ((h.routes lane).filter fun a => decide (a.1 < s₀.next)).filterMap Prod.snd
  have hlater : (routedItems log).filter (fun w => decide (w.serial < s₀.next) &&
      decide (itemLane σ.config w = some lane)) = [] := by
    refine List.filter_eq_nil_iff.mpr fun w hw => ?_
    have hw := h.arrivals.later w hw
    simp only [Bool.and_eq_true, decide_eq_true_eq]
    omega
  have hfirst : s₀.pending.filter (fun w => decide (w.serial < s₀.next) &&
      decide (itemLane σ.config w = some lane)) =
      s₀.pending.filter fun w => itemLane σ.config w = some lane := by
    refine List.filter_congr fun w hw => ?_
    rw [decide_eq_true (h.arrivals.first w hw), Bool.true_and]
  simp only [List.filter_map, List.filter_filter, List.filterMap_map, Function.comp_def,
    List.filter_append, hlater, hfirst, List.append_nil] at hroutes
  simp only [Bool.and_comm (decide (taskLane _ _ = _))]
  exact hroutes

/-- In a run that starts from rows enqueued in order, and in which no pass moves
a packet behind a later one of its lane, the executions of every lane start in
the order in which their packets were routed or enqueued. -/
theorem starts_in_order (σ : Setup) (l : Launch) {s₀ s : State} {log : List Event}
    (hstart : start σ l = .ok s₀)
    (hrows : ∀ db, s₀.db = some db → EnqueuedInOrder σ l.files db)
    (h : (engine σ).Logged (InTurn σ) events s₀ s log) : StartsInOrder σ s₀ log := by
  obtain ⟨s', hord⟩ : ∃ s', Ordered σ s₀ s' log := by
    rcases logged_ordered hstart h with ⟨_, hord⟩ | ⟨_, hord⟩
    · exact hord
    · exact ⟨s, hord⟩
  constructor
  · refine List.pairwise_map.mpr (hord.arrivals.serials.imp ?_)
    exact fun hlt => Nat.ne_of_lt hlt
  · exact hord.routes
  · intro lane db hdb
    exact (hord.recovered lane).trans ((start_ordered hstart).2 db hdb (hrows db hdb) lane)

end runs

/-! ### Starts out of order -/

/-- `a` feeds `b`, which preserves the order, and `c`. -/
def lanesFlow : FlowConfig :=
  exampleFlow 4 2
    [exampleProcessor "a",
      { exampleProcessor "b" with
        scheduling := { (exampleProcessor "b").scheduling with ordering := .preserve } },
      exampleProcessor "c"]
    [exampleConnection "a" "b", ⟨"a", "audit", "c", 10⟩]

/-- `a` emits twice for `b`, once for `c` and once more for `b`. -/
def lanesSetup : Setup where
  config := lanesFlow
  codec := exampleCodec
  execute := fun _ id packet =>
    ⟨if id = "a" then ["success", "success", "audit", "success"].map fun r => (r, packet) else [],
      .ok ()⟩
  processorMode := fun _ => .asyncIo
  pool := fun _ => 1

/-- Once `a` has left, the packet for `c` starts between two of `b`; then the
executions of `b` end one after the other. -/
def lanesTrace : List Action :=
  round 21 ++ [.emit 0, .receive (grantedAt 22 ["q-1"])] ++
    round 23 ++ [.emit 0, .receive (grantedAt 24 ["q-2"])] ++
    round 25 ++ [.emit 0, .receive (grantedAt 26 ["q-3"])] ++
    round 27 ++ [.emit 0, .receive (grantedAt 28 ["q-4"])] ++
    round 29 ++ [.join 0 30] ++ round 31 ++ [.join 0 32] ++ round 33 ++ [.join 1 34] ++ round 35

/-- Two rows for `b`, enqueued in the same second. -/
def lanesLaunch : Launch := exampleLaunch [exampleRow "q-2" "b", exampleRow "q-1" "b"]

/-- Two rows for `b` in order; the second starts after the first has ended. -/
theorem starts_in_order_of_two :
    ∃ s₀ s log, start lanesSetup (exampleLaunch [exampleRow "q-1" "b", exampleRow "q-2" "b"]) =
        .ok s₀ ∧
      (engine lanesSetup).exec s₀ (round 21 ++ [.join 0 22] ++ round 23) = some s ∧
      (startedTasks log).map Task.queueId = [some "q-1", some "q-2"] ∧
      StartsInOrder lanesSetup s₀ log := by
  refine ⟨_, _, _, rfl, rfl, by decide, starts_in_order lanesSetup
    (exampleLaunch [exampleRow "q-1" "b", exampleRow "q-2" "b"]) rfl ?_
    (.step (a := .check) (.step (a := .schedule (claimsAt 23)) (.step
      (a := .head (grantedAt 23 [])) (.step (a := .join 0 22) (.step (a := .check)
      (.step (a := .schedule (claimsAt 21)) (.step (a := .head (grantedAt 21 [])) .refl ?_ rfl)
        ?_ rfl) ?_ rfl) ?_ rfl) ?_ rfl) ?_ rfl) ?_ rfl)⟩
  · intro db hdb
    cases hdb
    unfold EnqueuedInOrder
    decide
  · trivial
  · exact fun _ => rfl
  · trivial
  · trivial
  · trivial
  · exact fun _ => rfl
  · trivial

/-- The packet `q-4` starts before `q-2`, which was routed before it; and the row
`q-1` is recovered before `q-2`, which was enqueued before it. -/
theorem starts_out_of_order :
    (∃ s₀ s log, create .asStored lanesFlow = .ok lanesFlow ∧
      start lanesSetup (exampleLaunch []) = .ok s₀ ∧
      (engine lanesSetup).Logged (fun _ _ => True) events s₀ s log ∧
      (startedTasks log).map Task.queueId =
        [none, some "q-1", some "q-3", some "q-4", some "q-2"] ∧
      ¬ StartsInOrder lanesSetup s₀ log) ∧
    ∃ s₀ s log, start lanesSetup lanesLaunch = .ok s₀ ∧
      (engine lanesSetup).Logged (fun _ _ => True) events s₀ s log ∧
      (startedTasks log).map Task.queueId = [some "q-1", some "q-2"] ∧
      ¬ StartsInOrder lanesSetup s₀ log := by
  constructor
  · refine ⟨_, _, _, rfl, rfl, .of_exec lanesTrace .refl rfl, by decide, fun h => ?_⟩
    have hlane := h.routes ("b", none)
    exact absurd hlane (by decide)
  · refine ⟨_, _, _, rfl, .of_exec (round 21 ++ [.join 0 22] ++ round 23) .refl rfl, by decide,
      fun h => ?_⟩
    have hlane := h.rows ("b", none) _ rfl
    exact absurd hlane (by decide)

end Jaiba.Engine
