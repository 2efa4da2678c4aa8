import Jaiba.Engine.Deadlock
import Jaiba.Engine.Ordering

/-!
# The backlog at a start

Recovery puts every pending row in the queue before the loop, and a pass ends the run at the first
item that it cannot place. With processors that emit nothing every row is inspected sooner or later,
so a start can rely on those backlogs only of which every row can be read back and placed.
-/

namespace Jaiba.Engine
open Jaiba.Lib Jaiba.Control Jaiba.Repository

/-! ### What recovery reserves -/

/-- The sizes fit the budget one by one, and the free units together. -/
def MemoryLimiter.Fits (m : MemoryLimiter) (sizes : List ℕ) : Prop :=
  (∀ bytes ∈ sizes, max bytes 1 ≤ m.budgetBytes) ∧ (sizes.map units).sum ≤ min m.available m.shared

theorem tryReserve_ok_iff {m m' : MemoryLimiter} {bytes : ℕ} : m.tryReserve bytes = .ok m' ↔
    (max bytes 1 ≤ m.budgetBytes ∧ MemoryLimiter.units bytes ≤ m.totalUnits ∧
      MemoryLimiter.units bytes ≤ m.available ∧ MemoryLimiter.units bytes ≤ m.shared) ∧
    m' = { m with
      available := m.available - MemoryLimiter.units bytes
      shared := m.shared - MemoryLimiter.units bytes } := by
  unfold MemoryLimiter.tryReserve
  simp only [Bool.or_eq_true, decide_eq_true_eq]
  split_ifs with hlarge hfull
  · refine iff_of_false (fun h => by cases h) fun h => ?_
    omega
  · refine iff_of_false (fun h => by cases h) fun h => ?_
    omega
  · refine ⟨fun h => ⟨by omega, (Except.ok.inj h).symm⟩, fun h => congrArg Except.ok h.2.symm⟩

theorem reserveStored_ok_iff {codec : Codec} {m : MemoryLimiter} (hm : m.available ≤ m.totalUnits) (serial : ℕ)
    (stored : List StoredWork) : (∃ items, reserveStored codec m serial stored = .ok items) ↔
      m.Fits (stored.map fun s => s.packet.estimatedSize codec) := by
  induction stored generalizing m serial with
  | nil =>
    refine iff_of_true ⟨[], rfl⟩ ⟨List.forall_mem_nil _, ?_⟩
    exact Nat.zero_le _
  | cons s stored ih =>
    rw [MemoryLimiter.Fits, List.map_cons, List.forall_mem_cons, List.map_cons, List.sum_cons]
    cases hreserve : m.tryReserve (s.packet.estimatedSize codec) with
    | error e =>
      refine iff_of_false (fun h => ?_) fun h => ?_
      · obtain ⟨items, h⟩ := h
        rw [reserveStored, hreserve] at h
        cases h
      · obtain ⟨⟨hbudget, -⟩, hsum⟩ := h
        have hok := tryReserve_ok_iff.mpr ⟨⟨hbudget, by omega, by omega, by omega⟩, rfl⟩
        rw [hreserve] at hok
        cases hok
    | ok m' =>
      obtain ⟨⟨hbudget, htotal, havailable, hshared⟩, hm'⟩ := tryReserve_ok_iff.mp hreserve
      have hrest := ih (m := m') (by rw [hm']; exact (Nat.sub_le _ _).trans hm) (serial + 1)
      rw [MemoryLimiter.Fits] at hrest
      rw [reserveStored, hreserve]
      dsimp only
      constructor
      · rintro ⟨items, h⟩
        split at h
        · cases h
        next later hlater =>
          obtain ⟨hall, hsum⟩ := hrest.mp ⟨later, hlater⟩
          rw [hm'] at hall hsum
          dsimp only at hsum
          exact ⟨⟨hbudget, hall⟩, by omega⟩
      · rintro ⟨⟨-, hall⟩, hsum⟩
        obtain ⟨later, hlater⟩ := hrest.mpr (by rw [hm']; exact ⟨hall, by dsimp only; omega⟩)
        rw [hlater]
        exact ⟨_, rfl⟩

/-! ### The rows of a backlog -/

/-- The rows that a start finds pending, abandoned ones included. -/
def backlogRows (config : FlowConfig) (l : Launch) : List Row :=
  if config.engine.repositoryEnabled then
    pendingRows (l.db.recoverAbandoned l.now config.id config.engine.abandonedAfterSeconds).2 config.id
  else []

/-- The item has a processor and, where that is partitioned, a key. -/
def Placeable (config : FlowConfig) (w : WorkItem) : Prop :=
  ∃ p key, config.definition? w.processorId = some p ∧ partitionKeyOf p w = .ok key

/-- The item that a stored row becomes. -/
def itemOf (stored : StoredWork) : WorkItem :=
  ⟨stored.processorId, stored.packet, none, some stored.queueId, 0⟩

/-- The sizes of the rows that can be read back. -/
def backlogSizes (codec : Codec) (files : Files) (rows : List Row) : List ℕ :=
  rows.filterMap fun row =>
    (materialize codec files row).toOption.map fun stored => stored.packet.estimatedSize codec

/-- Every row can be read back and placed, and all fit the memory together. -/
structure SoundBacklog (config : FlowConfig) (codec : Codec) (l : Launch) : Prop where
  rows : ∀ row ∈ backlogRows config l, ∃ stored, materialize codec l.files row = .ok stored ∧
    Placeable config (itemOf stored)
  memory : (MemoryLimiter.fromBudget l.budgetBytes l.shared).Fits
    (backlogSizes codec l.files (backlogRows config l))

/-- A pass has ended for another reason than a row of the backlog: a claim without an answer, or an
item that this run has queued. -/
def OtherCause (σ : Setup) (s₀ s : State) (input : ScheduleInput) : Prop :=
  (∃ queueId e, input.claimError queueId = some e) ∨
    ∃ w ∈ s.pending, ¬ (w ∈ s₀.pending ∧ w.queueId.isSome) ∧ ¬ Placeable σ.config w

/-- What a run does with its rows: each is queued, stays in the queue until it is started, is held
back only where the limits of the flow hold it back, and ends no pass. -/
structure RowByRow (σ : Setup) (l : Launch) (s₀ : State) : Prop where
  queued : ∀ row ∈ backlogRows σ.config l, ∃ w ∈ s₀.pending,
    w.queueId = some row.queueId ∧ w.processorId = row.processorId
  scheduled : ∀ s a t, (engine σ).Reachable s₀ s → step σ s a = some t → ∀ w ∈ s.pending,
    w ∈ t.pending ∨ ∃ x ∈ t.running, x.serial = w.serial ∧ x.queueId = w.queueId
  held : ∀ s input t, (engine σ).Reachable s₀ s → step σ s (.schedule input) = some t →
    s.control = .running → (∃ exit, t.phase = .ended exit) ∨
      σ.config.engine.maxConcurrency ≤ t.running.length ∨
      ∀ w ∈ t.pending, decide? σ input (State.queued s.pending + s.channel.length) t w = .skip
  passes : ∀ s input t, (engine σ).Reachable s₀ s → step σ s (.schedule input) = some t →
    (∃ exit, t.phase = .ended exit) → OtherCause σ s₀ s input

/-- Whatever the processors do, no row of the backlog stops the others. -/
def NeverBlocks (config : FlowConfig) (codec : Codec) (l : Launch) : Prop :=
  ∀ σ : Setup, σ.config = config → σ.codec = codec → ∃ s₀, start σ l = .ok s₀ ∧ RowByRow σ l s₀

/-! ### A start -/

theorem placeable_item {config : FlowConfig} {stored : StoredWork} {w : WorkItem} (h : ItemOf stored w) :
    Placeable config w ↔ Placeable config (itemOf stored) := by
  obtain ⟨hprocessor, hpacket, -, -⟩ := h
  simp only [Placeable, partitionKeyOf, itemOf, hprocessor, hpacket]

theorem backlogSizes_eq {codec : Codec} {files : Files} {rows : List Row} {stored : List StoredWork}
    (h : List.Forall₂ (fun row w => materialize codec files row = .ok w) rows stored) :
    backlogSizes codec files rows = stored.map fun s => s.packet.estimatedSize codec := by
  induction h with
  | nil => rfl
  | cons hrow _ ih =>
    rw [backlogSizes, List.filterMap_cons_some (by rw [hrow]; rfl), List.map_cons, ← ih]
    rfl

section start
variable {σ : Setup} {l : Launch} {s₀ : State}

/-- A run starts if all rows can be read back and fit the memory together. -/
theorem start_ok_iff : (∃ s₀, start σ l = .ok s₀) ↔
    (∀ row ∈ backlogRows σ.config l, ∃ stored, materialize σ.codec l.files row = .ok stored) ∧
      (MemoryLimiter.fromBudget l.budgetBytes l.shared).Fits
        (backlogSizes σ.codec l.files (backlogRows σ.config l)) := by
  unfold start backlogRows
  split_ifs with henabled
  · unfold recover
    dsimp only
    generalize (l.db.recoverAbandoned l.now σ.config.id σ.config.engine.abandonedAfterSeconds).2 = db
    cases hpending : pending σ.codec l.files db σ.config.id with
    | error e =>
      refine iff_of_false (fun h => ?_) fun h => ?_
      · obtain ⟨s₀, h⟩ := h
        cases h
      · obtain ⟨stored, hstored⟩ := mapM_ok_of_forall h.1
        rw [pending, hstored] at hpending
        cases hpending
    | ok stored =>
      have hrows := pending_ok σ.codec hpending
      rw [backlogSizes_eq hrows, ← reserveStored_ok_iff (Nat.le_refl _) 0]
      constructor
      · rintro ⟨s₀, h⟩
        refine ⟨fun row hrow => ?_, ?_⟩
        · obtain ⟨w, -, hw⟩ := mem_of_mapM_ok hpending hrow
          exact ⟨w, hw⟩
        · split at h
          · cases h
          next items db' hitems =>
            exact ⟨items, (Prod.mk.inj hitems).1⟩
      · rintro ⟨-, items, hitems⟩
        dsimp only
        rw [hitems]
        exact ⟨_, rfl⟩
  · refine iff_of_true ⟨_, rfl⟩ ⟨List.forall_mem_nil _, List.forall_mem_nil _, ?_⟩
    exact Nat.zero_le _

/-- What the loop starts on. -/
structure Recovered (σ : Setup) (l : Launch) (s₀ : State) : Prop where
  items : ∀ w ∈ s₀.pending, w.queueId.isSome → ∃ row ∈ backlogRows σ.config l, ∃ stored,
    materialize σ.codec l.files row = .ok stored ∧ ItemOf stored w
  rows : ∀ row ∈ backlogRows σ.config l, ∃ w ∈ s₀.pending, ∃ stored,
    materialize σ.codec l.files row = .ok stored ∧ ItemOf stored w
  only : backlogRows σ.config l ≠ [] → ∀ w ∈ s₀.pending, w.queueId.isSome

theorem exists_left {α β : Type} {r : α → β → Prop} {as : List α} {bs : List β}
    (h : List.Forall₂ r as bs) {b : β} (hb : b ∈ bs) : ∃ a ∈ as, r a b := by
  induction h with
  | nil => cases hb
  | cons hab _ ih =>
    rcases List.mem_cons.mp hb with rfl | hb
    · exact ⟨_, List.mem_cons_self, hab⟩
    · obtain ⟨a, ha, hr⟩ := ih hb
      exact ⟨a, List.mem_cons_of_mem _ ha, hr⟩

theorem recover_db (σ : Setup) (l : Launch) : (recover σ l).2 =
    (l.db.recoverAbandoned l.now σ.config.id σ.config.engine.abandonedAfterSeconds).2 := by
  unfold recover
  dsimp only
  split <;> rfl

theorem start_recovered (h : start σ l = .ok s₀) : Recovered σ l s₀ := by
  have hseeds : ∀ w ∈ sourceSeeds σ.config l.packetId, ¬ w.queueId.isSome := by
    intro w hw hsome
    rw [(sourceSeeds_mem hw).1] at hsome
    cases hsome
  unfold start at h
  split_ifs at h with henabled
  · split at h
    · cases h
    next recovered db hrecover =>
      have hdb := recover_db σ l
      rw [hrecover] at hdb
      have hrows : backlogRows σ.config l = pendingRows db σ.config.id := by
        rw [backlogRows, if_pos henabled, ← hdb]
      have hitems := recover_ok hrecover
      rw [← hrows] at hitems
      cases h
      cases recovered with
      | nil =>
        have hnil := List.forall₂_nil_right_iff.mp hitems
        refine ⟨fun w hw hsome => absurd hsome (hseeds w hw), ?_, fun hne => absurd hnil hne⟩
        rw [hnil]
        exact List.forall_mem_nil _
      | cons first recovered =>
        refine ⟨fun w hw _ => exists_left hitems hw, fun row hrow => exists_left hitems.flip hrow,
          fun _ w hw => ?_⟩
        obtain ⟨row, -, stored, -, -, -, -, hqueue⟩ := exists_left hitems hw
        rw [hqueue]
        rfl
  · cases h
    have hnil : backlogRows σ.config l = [] := if_neg henabled
    refine ⟨fun w hw hsome => absurd hsome (hseeds w hw), ?_, fun hne => absurd hnil hne⟩
    rw [hnil]
    exact List.forall_mem_nil _

end start

/-! ### A run on a sound backlog -/

section run
variable {σ : Setup} {l : Launch} {input : ScheduleInput} {backlog : ℕ} {s₀ s t : State}

/-- A pass takes an item out of the queue only to start it. -/
theorem Schedules.kept (hs : Schedules σ input backlog s t) (hc : Coherent σ s) :
    ∀ w ∈ s.pending, w ∈ t.pending ∨ ∃ x ∈ t.running, x.serial = w.serial ∧ x.queueId = w.queueId := by
  induction hs with
  | idle hperm hdrop _ =>
    intro w hw
    rcases List.mem_append.mp (hperm.symm.subset hw) with hin | hout
    · exact .inl hin
    · exact absurd (hdrop w hout) (not_dropped hc hw)
  | @start s t v p key db pending dropped hperm hdrop hst hlater ih =>
    intro w hw
    rcases List.mem_append.mp (hperm.symm.subset hw) with hin | hout
    · rcases List.mem_cons.mp hin with rfl | hin
      · obtain ⟨-, -, tasks, hrunning, -⟩ := hlater.origin
        refine .inr ⟨taskOf σ w p key, ?_, rfl, rfl⟩
        rw [hrunning]
        exact List.mem_append_left _ (List.mem_append_right _ List.mem_cons_self)
      · exact ih (hc.start hperm hst) w hin
    · exact absurd (hdrop w hout) (not_dropped hc hw)
  | stop => exact fun w hw => .inl hw

theorem step_kept {a : Action} (hc : Coherent σ s) (hs : step σ s a = some t) :
    ∀ w ∈ s.pending, w ∈ t.pending ∨ ∃ x ∈ t.running, x.serial = w.serial ∧ x.queueId = w.queueId := by
  intro w hw
  obtain ⟨-, htr⟩ := step_transition hs
  cases htr with
  | control | abort | acquire | leave | resume | refill | finish | giveUp | select | stall | maintain |
    deadlock => exact .inl hw
  | emit hx _ _ hemit =>
    unfold State.emit at hemit
    dsimp only at hemit
    split_ifs at hemit <;> cases hemit <;> exact .inl hw
  | @route input e =>
    have hc' : Coherent σ { s with deferred := none } := ⟨hc.roster, hc.backlog, hc.channel, hc.permits⟩
    obtain ⟨items, hpending, -⟩ := route_items hc' input e .scheduling
    rw [hpending]
    exact .inl (List.mem_append_left _ hw)
  | @schedule input =>
    rcases scheduleAvailable_cases σ input s with ⟨-, heq⟩ | ⟨-, hsch⟩
    · rw [heq]
      exact .inl hw
    · exact hsch.kept hc w hw
  | @join i x now =>
    left
    unfold State.complete
    split <;> exact hw
  | @receive input e rest _ _ hchan =>
    have hlen := hc.channel
    rw [hchan, List.length_cons] at hlen
    have hc' : Coherent σ { s with channel := rest } :=
      ⟨hc.roster, hc.backlog, Nat.le_of_succ_le hlen, hc.permits⟩
    obtain ⟨items, hpending, -⟩ := route_items hc' input e .head
    rw [hpending]
    exact .inl (List.mem_append_left _ hw)

/-- What a pass leaves in the queue is held back. -/
theorem Schedules.held (hs : Schedules σ input backlog s t) : (∃ exit, t.phase = .ended exit) ∨
    σ.config.engine.maxConcurrency ≤ t.running.length ∨
    ∀ w ∈ t.pending, decide? σ input backlog t w = .skip := by
  induction hs with
  | idle _ _ hhalt => exact .inr hhalt
  | start _ _ _ _ ih => exact ih
  | stop => exact .inl ⟨_, rfl⟩

/-- A pass that ends the run does so on an item of the queue that has no place, or on a claim. -/
theorem Schedules.stopped (hs : Schedules σ input backlog s t)
    (hend : ∃ exit, t.phase = .ended exit) : (∃ queueId e, input.claimError queueId = some e) ∨
      ∃ w ∈ s.pending, ¬ Placeable σ.config w := by
  induction hs with
  | idle =>
    obtain ⟨exit, hexit⟩ := hend
    cases hexit
  | @start s t w p key db pending dropped hperm _ _ _ ih =>
    refine (ih hend).imp_right fun ⟨v, hv, hbad⟩ => ⟨v, ?_, hbad⟩
    exact hperm.subset (List.mem_append_left _ (List.mem_cons_of_mem w hv))
  | @stop s w exit hw hstop =>
    rcases stop_of_decide hstop with hnone | ⟨p, e, hp, herror⟩ | ⟨queueId, e, -, hclaim⟩
    · refine .inr ⟨w, hw, fun ⟨p, key, hp, _⟩ => ?_⟩
      rw [hnone] at hp
      cases hp
    · refine .inr ⟨w, hw, fun ⟨q, key, hq, hkey⟩ => ?_⟩
      rw [hp] at hq
      cases hq
      rw [herror] at hkey
      cases hkey
    · exact .inl ⟨queueId, e, hclaim⟩

/-- A state before a step is coherent. -/
theorem coherent_of_reachable (hstart : start σ l = .ok s₀) (h : (engine σ).Reachable s₀ s) (hlive : s.Live) :
    Coherent σ s := by
  have hinv : (∃ exit, s.phase = .ended exit) ∨ Coherent σ s := by
    refine h.invariant (I := fun u => (∃ exit, u.phase = .ended exit) ∨ Coherent σ u)
      (.inr (start_coherent hstart)) fun u a v hu _ hv => ?_
    rcases hu with ⟨exit, hexit⟩ | hu
    · exact absurd hexit ((step_transition hv).1 exit)
    · exact step_coherent hu hv
  exact hinv.resolve_left fun ⟨exit, hexit⟩ => hlive exit hexit

theorem SoundBacklog.rowByRow (h : SoundBacklog σ.config σ.codec l) (hstart : start σ l = .ok s₀) :
    RowByRow σ l s₀ := by
  have hrecovered := start_recovered hstart
  have hsound : ∀ w ∈ s₀.pending, w.queueId.isSome → Placeable σ.config w := by
    intro w hw hsome
    obtain ⟨row, hrow, stored, hstored, hitem⟩ := hrecovered.items w hw hsome
    obtain ⟨stored', hstored', hplace⟩ := h.rows row hrow
    rw [hstored] at hstored'
    cases hstored'
    exact (placeable_item hitem).mpr hplace
  refine ⟨fun row hrow => ?_, fun s a t hs hstep => ?_, fun s input t hs hstep hcontrol => ?_,
    fun s input t hs hstep hend => ?_⟩
  · obtain ⟨w, hw, stored, hstored, hprocessor, -, -, hqueue⟩ := hrecovered.rows row hrow
    obtain ⟨hid, hname⟩ := materialize_ok σ.codec hstored
    exact ⟨w, hw, by rw [hqueue, hid], by rw [hprocessor, hname]⟩
  · exact step_kept (coherent_of_reachable hstart hs (step_transition hstep).1) hstep
  · obtain ⟨-, htr⟩ := step_transition hstep
    cases htr
    exact (scheduleAvailable_schedules input hcontrol).held
  · obtain ⟨-, htr⟩ := step_transition hstep
    cases htr
    rcases scheduleAvailable_cases σ input s with ⟨-, heq⟩ | ⟨-, hsch⟩
    · rw [heq] at hend
      obtain ⟨exit, hexit⟩ := hend
      cases hexit
    · refine (hsch.stopped hend).imp_right fun ⟨w, hw, hbad⟩ => ⟨w, hw, fun hrow => ?_, hbad⟩
      exact hbad (hsound w hrow.1 hrow.2)

end run

/-! ### A run on a row that has no place -/

/-- Processors that emit nothing. -/
def silentSetup (config : FlowConfig) (codec : Codec) : Setup where
  config := config
  codec := codec
  execute := fun _ _ _ => ⟨[], .ok ()⟩
  processorMode := fun _ => .asyncIo
  pool := fun _ => 1

/-- Nothing is emitted, and nothing has stalled. -/
structure Silent (σ : Setup) (s : State) : Prop where
  control : s.control = .running
  deferred : s.deferred = none
  stall : s.memoryStall = none
  program : ∀ x ∈ s.running, x.program = ⟨[], .ok none⟩
  coherent : Coherent σ s

section silent
variable {config : FlowConfig} {codec : Codec} {l : Launch} {backlog : ℕ} {s₀ s t : State} {bad : WorkItem}

theorem silent_programOf (w : WorkItem) (p : ProcessorConfig) :
    (silentSetup config codec).programOf w p = ⟨[], .ok none⟩ := by
  unfold Setup.programOf executeWithRetry
  cases p.retry.maximumAttempts - w.packet.attempt <;> rfl

theorem Silent.goto {σ : Setup} (h : Silent σ s) (p : Phase) : Silent σ { s with phase := p } :=
  ⟨h.control, h.deferred, h.stall, h.program,
    ⟨h.coherent.roster, h.coherent.backlog, h.coherent.channel, h.coherent.permits⟩⟩

/-- Each pass starts something, unless it ends the run; a start counts one less. -/
def workload (s : State) : ℕ := 2 * s.pending.length + s.running.length

theorem Schedules.silent (hv : Valid config)
    (hs : Schedules (silentSetup config codec) (claimsAt 0) backlog s t) (h : Silent (silentSetup config codec) s)
    (hbad : bad ∈ s.pending) (hseed : bad.isSourceSeed = false) (hplace : ¬ Placeable config bad) :
    (∃ exit, t.phase = .ended exit) ∨ t.phase = .checking ∧ Silent (silentSetup config codec) t ∧
      bad ∈ t.pending ∧ t.pending ⊆ s.pending ∧ t.running ≠ [] ∧ workload t ≤ workload s := by
  induction hs with
  | @idle s pending dropped hperm hdrop hhalt =>
    have hkept : bad ∈ pending := by
      rcases List.mem_append.mp (hperm.symm.subset hbad) with hin | hout
      · exact hin
      · exact absurd (hdrop bad hout) (not_dropped h.coherent hbad)
    have hsub : pending.Subperm s.pending :=
      (List.sublist_append_left pending dropped).subperm.trans hperm.subperm
    refine .inr ⟨rfl, ⟨h.control, h.deferred, h.stall, h.program, ?_⟩, hkept, hsub.subset, fun hidle => ?_, ?_⟩
    · have hb : Backlog config pending s.db := by
        refine h.coherent.backlog.keep hsub (fun x _ q d d' _ hd hd' hp => ?_) rfl
        rw [hd] at hd'
        cases hd'
        exact hp
      exact ⟨h.coherent.roster, hb, h.coherent.channel, h.coherent.permits⟩
    · -- nothing runs, so nothing holds the row back
      have hlow : atLeast config (depthOf config bad.processorId + 1) bad.processorId = false := by
        simp [atLeast]
      obtain ⟨hfree, hskip⟩ := not_held (claimsAt 0) backlog hv h.coherent hlow hseed
        (fun x hx => by rw [show s.running = [] from hidle] at hx; cases hx)
      rcases hhalt with hfull | hall
      · omega
      · exact hskip (hall bad hkept)
    · have hlen := hsub.length_le
      simp only [workload]
      omega
  | @start s t w p key db pending dropped hperm hdrop hst _ ih =>
    have hkept : bad ∈ pending := by
      rcases List.mem_append.mp (hperm.symm.subset hbad) with hin | hout
      · rcases List.mem_cons.mp hin with rfl | hin
        · exact absurd ⟨p, key, hst.definition, hst.keyOf⟩ hplace
        · exact hin
      · exact absurd (hdrop bad hout) (not_dropped h.coherent hbad)
    have hsilent : Silent (silentSetup config codec) (s.start (silentSetup config codec) w p key db pending) := by
      refine ⟨h.control, h.deferred, h.stall, fun x hx => ?_, h.coherent.start hperm hst⟩
      rcases List.mem_append.mp hx with hx | hx
      · exact h.program x hx
      · rw [List.mem_singleton.mp hx]
        exact silent_programOf w p
    rcases ih hsilent hkept with hexit | ⟨hphase, hq, hin, hsub, hrunning, hwork⟩
    · exact .inl hexit
    · refine .inr ⟨hphase, hq, hin, fun x hx => ?_, hrunning, hwork.trans ?_⟩
      · exact hperm.subset (List.mem_append_left _ (List.mem_cons_of_mem w (hsub hx)))
      · have hlen := hperm.length_eq
        rw [List.cons_append, List.length_cons, List.length_append] at hlen
        simp only [workload, State.start, List.length_append, List.length_singleton]
        omega
  | stop => exact .inl ⟨_, rfl⟩

/-- The first task gets its permit. -/
theorem Silent.permit (h : Silent (silentSetup config codec) s) (hp : s.phase = .selecting) (hr : s.running ≠ []) :
    ∃ t x, (engine (silentSetup config codec)).Reachable s t ∧ Silent (silentSetup config codec) t ∧
      t.phase = .selecting ∧ t.pending = s.pending ∧ t.running.length = s.running.length ∧
      t.running[0]? = some x ∧ x.permit = true := by
  obtain ⟨x, hx⟩ : ∃ x, s.running[0]? = some x := by
    cases hrunning : s.running with
    | nil => exact absurd hrunning hr
    | cons x rest => exact ⟨x, rfl⟩
  rcases Bool.eq_false_or_eq_true x.permit with hpermit | hpermit
  · exact ⟨s, x, .refl, h, hp, rfl, rfl, hx, hpermit⟩
  · have hfree : 0 < s.freePermits (silentSetup config codec) x.mode := by
      have hnone : s.running.countP (Task.holds x.mode) = 0 := by
        refine List.countP_eq_zero.mpr fun y hy hholds => ?_
        simp [Task.holds, h.program y hy] at hholds
      rw [State.freePermits, hnone]
      exact Nat.one_pos
    have hlive : s.Live := live_of_phase hp (by simp)
    have hstep := step_acquire hlive hx hpermit hfree
    have hset : ({ s with running := s.running.set 0 { x with permit := true } } : State).running[0]? =
        some { x with permit := true } := List.getElem?_set_self (List.getElem?_eq_some_iff.mp hx).1
    refine ⟨_, { x with permit := true }, .step .refl trivial hstep, ⟨h.control, h.deferred, h.stall, ?_, ?_⟩, hp, rfl,
      List.length_set, hset, rfl⟩
    · intro y hy
      rcases List.mem_or_eq_of_mem_set hy with hy | rfl
      · exact h.program y hy
      · exact h.program x (List.mem_of_getElem? hx)
    · exact h.coherent.set hx rfl rfl rfl rfl rfl rfl rfl rfl h.coherent.channel

/-- The first task is joined. -/
theorem Silent.join {x : Task} (h : Silent (silentSetup config codec) s) (hp : s.phase = .selecting)
    (hx : s.running[0]? = some x) (hpermit : x.permit = true) :
    ∃ t, (engine (silentSetup config codec)).Reachable s t ∧ Silent (silentSetup config codec) t ∧
      t.phase = .head ∧ t.pending = s.pending ∧ t.running.length + 1 = s.running.length := by
  have hprogram := h.program x (List.mem_of_getElem? hx)
  have hfinished : x.finished = true := by
    rw [Task.finished, hpermit, hprogram]
    rfl
  have hstep := step_join (σ := silentSetup config codec) 0 hp hx hfinished
  obtain ⟨hhead, hstall, hcontrol, hpending, hdeferred, -⟩ :=
    complete_ok (s := s) (i := 0) 0 (show x.program.outcome = .ok none by rw [hprogram])
  obtain ⟨-, -, -, hrunning⟩ := complete_frame s 0 x 0
  have hcoherent : Coherent (silentSetup config codec) (s.complete 0 x 0) := by
    rcases step_coherent h.coherent hstep with ⟨exit, hexit⟩ | hc
    · rw [hhead] at hexit
      cases hexit
    · exact hc
  refine ⟨_, .step .refl trivial hstep, ⟨hcontrol.trans h.control, hdeferred.trans h.deferred, hstall,
    fun y hy => ?_, hcoherent⟩, hhead, hpending, ?_⟩
  · rw [hrunning] at hy
    exact h.program y (List.mem_of_mem_eraseIdx hy)
  · rw [hrunning]
    exact List.length_eraseIdx_add_one (List.getElem?_eq_some_iff.mp hx).1

/-- The next pass ends the run. -/
def Stops (config : FlowConfig) (codec : Codec) (s : State) : Prop :=
  ∃ t exit, step (silentSetup config codec) s (.schedule (claimsAt 0)) = some t ∧ t.phase = .ended exit

/-- At the head of the loop, with the row in the queue. -/
structure Looping (config : FlowConfig) (codec : Codec) (s₀ : State) (bad : WorkItem) (s : State) : Prop where
  silent : Silent (silentSetup config codec) s
  phase : s.phase = .head
  queue : s.pending ⊆ s₀.pending
  bad : bad ∈ s.pending

/-- A round ends the run, or leaves less to do. -/
theorem Looping.round (hv : Valid config) (hseed : bad.isSourceSeed = false) (hplace : ¬ Placeable config bad)
    (h : Looping config codec s₀ bad s) : ∃ t, (engine (silentSetup config codec)).Reachable s t ∧
      (t.pending ⊆ s₀.pending ∧ Stops config codec t ∨
        Looping config codec s₀ bad t ∧ workload t < workload s) := by
  have hhead := step_head (σ := silentSetup config codec) (grantedAt 0 []) h.phase
  rw [loopHead_resume (.inr h.silent.control) h.silent.deferred] at hhead
  have ha := h.silent.goto .scheduling
  have hsch := scheduleAvailable_schedules (σ := silentSetup config codec) (claimsAt 0) ha.control
  have hschedule := step_schedule (σ := silentSetup config codec) (s := { s with phase := .scheduling })
    (claimsAt 0) rfl
  generalize scheduleAvailable (silentSetup config codec) (claimsAt 0) { s with phase := .scheduling } = b
    at hsch hschedule
  have hreach : (engine (silentSetup config codec)).Reachable s { s with phase := .scheduling } :=
    .step .refl trivial hhead
  rcases hsch.silent hv ha h.bad hseed hplace with ⟨exit, hexit⟩ | ⟨hphase, hb, hbad, hsub, hrunning, hwork⟩
  · exact ⟨_, hreach, .inl ⟨h.queue, b, exit, hschedule, hexit⟩⟩
  · have hcheck := step_check (σ := silentSetup config codec) hphase
    rw [exitTest_select hb.stall (.inl (List.ne_nil_of_mem hbad))] at hcheck
    have hpass : (engine (silentSetup config codec)).Reachable s b :=
      Machine.Reach.step (a := Action.schedule (claimsAt 0)) hreach trivial hschedule
    have hselecting : (engine (silentSetup config codec)).Reachable s { b with phase := .selecting } :=
      .step hpass trivial hcheck
    obtain ⟨c, x, hbc, hc, hcphase, hcpending, hclength, hx, hpermit⟩ := (hb.goto .selecting).permit rfl hrunning
    obtain ⟨d, hcd, hd, hdphase, hdpending, hdlength⟩ := hc.join hcphase hx hpermit
    have hpending : d.pending = b.pending := hdpending.trans hcpending
    refine ⟨d, (hselecting.trans hbc).trans hcd, .inr ⟨⟨hd, hdphase, ?_, ?_⟩, ?_⟩⟩
    · rw [hpending]
      exact List.Subset.trans hsub h.queue
    · rw [hpending]
      exact hbad
    · dsimp only at hclength
      simp only [workload] at hwork ⊢
      rw [hpending]
      omega

/-- Sooner or later the row ends the run. -/
theorem Looping.stops (hv : Valid config) (hseed : bad.isSourceSeed = false) (hplace : ¬ Placeable config bad)
    (h : Looping config codec s₀ bad s) :
    ∃ t, (engine (silentSetup config codec)).Reachable s t ∧ t.pending ⊆ s₀.pending ∧ Stops config codec t :=
  @Machine.Path.progress _ _ (engine (silentSetup config codec)) (fun _ => True) (Looping config codec s₀ bad)
    (fun t => t.pending ⊆ s₀.pending ∧ Stops config codec t) workload
    (fun _ hs _ => hs.round hv hseed hplace) s h

theorem start_silent (hstart : start (silentSetup config codec) l = .ok s₀) :
    Silent (silentSetup config codec) s₀ ∧ s₀.phase = .head := by
  obtain ⟨recovered, db, rfl⟩ : ∃ recovered db, s₀ = .init (silentSetup config codec) l.packetId recovered db := by
    unfold start at hstart
    split at hstart
    · split at hstart
      · cases hstart
      · exact ⟨_, _, (Except.ok.inj hstart).symm⟩
    · exact ⟨_, _, (Except.ok.inj hstart).symm⟩
  exact ⟨⟨rfl, rfl, rfl, List.forall_mem_nil _, start_coherent hstart⟩, rfl⟩

theorem not_rowByRow (hv : Valid config) (hstart : start (silentSetup config codec) l = .ok s₀)
    {row : Row} {stored : StoredWork} (hrow : row ∈ backlogRows config l)
    (hstored : materialize codec l.files row = .ok stored) (hplace : ¬ Placeable config (itemOf stored)) :
    ¬ RowByRow (silentSetup config codec) l s₀ := by
  intro hrun
  have hrecovered := start_recovered hstart
  obtain ⟨w, hw, stored', hstored', hitem⟩ := hrecovered.rows row hrow
  rw [show materialize (silentSetup config codec).codec l.files row = .ok stored from hstored] at hstored'
  cases hstored'
  have hrows := hrecovered.only (List.ne_nil_of_mem hrow)
  have hseed : w.isSourceSeed = false := by
    simp [WorkItem.isSourceSeed, hitem.2.2.2]
  obtain ⟨hsilent, hphase⟩ := start_silent hstart
  have hinit : Looping config codec s₀ w s₀ := ⟨hsilent, hphase, List.Subset.refl _, hw⟩
  obtain ⟨s, hs, hsub, t, exit, hstep, hexit⟩ :=
    hinit.stops hv hseed fun h => hplace ((placeable_item hitem).mp h)
  rcases hrun.passes s (claimsAt 0) t hs hstep ⟨exit, hexit⟩ with ⟨queueId, e, hclaim⟩ | ⟨v, hv, hother, -⟩
  · cases hclaim
  · exact hother ⟨hsub hv, hrows v (hsub hv)⟩

end silent

/-- A backlog is worked off row by row under all processors if and only if each of its rows can be
read back and has a place in the flow, and all fit the memory together. -/
theorem neverBlocks_iff (config : FlowConfig) (codec : Codec) (l : Launch) (haccepted : Accepted config) :
    NeverBlocks config codec l ↔ SoundBacklog config codec l := by
  constructor
  · intro h
    obtain ⟨s₀, hstart, hrun⟩ := h (silentSetup config codec) rfl rfl
    obtain ⟨hrows, hmemory⟩ := start_ok_iff.mp ⟨s₀, hstart⟩
    refine ⟨fun row hrow => ?_, hmemory⟩
    obtain ⟨stored, hstored⟩ := hrows row hrow
    refine ⟨stored, hstored, ?_⟩
    by_contra hplace
    exact not_rowByRow haccepted.valid hstart hrow hstored hplace hrun
  · rintro h σ rfl rfl
    obtain ⟨s₀, hstart⟩ := (start_ok_iff (σ := σ) (l := l)).mpr
      ⟨fun row hrow => (h.rows row hrow).imp fun stored hstored => hstored.1, h.memory⟩
    exact ⟨s₀, hstart, h.rowByRow hstart⟩

/-- A row of a processor that the flow no longer has holds up the row of another. -/
theorem neverBlocks_pair :
    NeverBlocks pairFlow exampleCodec (exampleLaunch [exampleRow "q-2" "b"]) ∧
      ¬ NeverBlocks pairFlow exampleCodec (exampleLaunch [exampleRow "q-1" "gone", exampleRow "q-2" "b"]) := by
  constructor
  · refine (neverBlocks_iff pairFlow exampleCodec _ ⟨.asStored, rfl⟩).mpr ⟨?_, ?_, ?_⟩
    · exact List.forall_mem_cons.mpr ⟨⟨_, rfl, _, _, rfl, rfl⟩, List.forall_mem_nil _⟩
    · exact List.forall_mem_cons.mpr ⟨by decide, List.forall_mem_nil _⟩
    · decide
  · intro h
    have hrows := ((neverBlocks_iff pairFlow exampleCodec _ ⟨.asStored, rfl⟩).mp h).rows
    obtain ⟨stored, hstored, p, key, hp, -⟩ := hrows ((exampleRow "q-1" "gone").toRow 10) (by decide)
    rw [itemOf, (materialize_ok exampleCodec hstored).2] at hp
    cases hp

end Jaiba.Engine
