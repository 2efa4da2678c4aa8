import Jaiba.Engine.Loop
import Jaiba.Engine.Recovery

/-!
# Coherence of a run

What holds between the variables of `run_inner` as long as the run is alive: the
counters and the partition keys are those of the running tasks, slots stay
reserved for the stages below, and the rows of the queue can be claimed.
-/

namespace Jaiba.Engine
open Jaiba.Lib Jaiba.Control Jaiba.Repository

/-- Processor and partition key of the running tasks. -/
def State.roster (s : State) : List (String × Option String) :=
  s.running.map fun x => (x.processorId, x.partitionKey)

/-- The longest path below the processor has `d` connections or more. -/
def atLeast (config : FlowConfig) (d : ℕ) (id : String) : Bool := d ≤ depthOf config id

structure Roster (config : FlowConfig) (roster : List (String × Option String))
    (active : String → ℕ) (partitions : String → List String) : Prop where
  active : ∀ id, active id = roster.countP fun r => r.1 = id
  nodup : ∀ id, (partitions id).Nodup
  partition : ∀ id key, key ∈ partitions id → (id, some key) ∈ roster
  slots : ∀ d, 0 < roster.countP (fun r => atLeast config d r.1) →
    roster.countP (fun r => atLeast config d r.1) + d ≤ config.engine.maxConcurrency

structure Backlog (config : FlowConfig) (pending : List WorkItem) (db : Option Database) :
    Prop where
  seeds : ∀ w ∈ pending, w.isSourceSeed = true → ∀ k ∈ config.connections,
    k.target ≠ w.processorId
  rows : ∀ w ∈ pending, ∀ q d, w.queueId = some q → db = some d → d.statusOf q = some .pending
  nodup : (pending.filterMap WorkItem.queueId).Nodup

structure Coherent (σ : Setup) (s : State) : Prop where
  roster : Roster σ.config s.roster s.active s.partitions
  backlog : Backlog σ.config s.pending s.db
  channel : s.channel.length ≤ σ.config.engine.queueCapacity
  permits : ∀ x ∈ s.running, x.permit = false → pooled x.mode = true

/-! ### The roster -/

section roster
variable {config : FlowConfig} {roster rest : List (String × Option String)}
  {active : String → ℕ} {partitions : String → List String} {id : String}
  {key : Option String}

theorem Roster.start (h : Roster config roster active partitions)
    (hslots : roster.length + 1 + depthOf config id ≤ config.engine.maxConcurrency)
    (hfree : ∀ k, key = some k → k ∉ partitions id) :
    Roster config (roster ++ [(id, key)]) (Function.update active id (active id + 1))
      (insertPartition partitions id key) := by
  constructor
  · intro id'
    rw [List.countP_append, List.countP_singleton]
    by_cases hid : id' = id
    · subst hid
      simp [h.active]
    · simp [Function.update_of_ne hid, h.active, Ne.symm hid]
  · intro id'
    cases key with
    | none => exact h.nodup id'
    | some k =>
      by_cases hid : id' = id
      · subst hid
        simp only [insertPartition, Function.update_self]
        exact List.nodup_cons.mpr ⟨hfree k rfl, h.nodup id'⟩
      · simpa only [insertPartition, Function.update_of_ne hid] using h.nodup id'
  · intro id' k' hk
    cases key with
    | none => exact List.mem_append_left _ (h.partition id' k' hk)
    | some k =>
      by_cases hid : id' = id
      · subst hid
        simp only [insertPartition, Function.update_self] at hk
        rcases List.mem_cons.mp hk with rfl | hk
        · exact List.mem_append_right _ List.mem_cons_self
        · exact List.mem_append_left _ (h.partition id' k' hk)
      · simp only [insertPartition, Function.update_of_ne hid] at hk
        exact List.mem_append_left _ (h.partition id' k' hk)
  · intro d hpos
    have hlen := List.countP_le_length (p := fun r => atLeast config d r.1) (l := roster)
    have hslot := h.slots d
    rw [List.countP_append, List.countP_singleton] at hpos ⊢
    by_cases hd : atLeast config d id = true
    · have hle : d ≤ depthOf config id := by simpa [atLeast] using hd
      rw [if_pos hd]
      omega
    · rw [if_neg hd] at hpos ⊢
      have hs := hslot hpos
      omega

theorem Roster.erase (h : Roster config roster active partitions)
    (hperm : ((id, key) :: rest).Perm roster) :
    Roster config rest (Function.update active id (active id - 1))
      (removePartition partitions id key) := by
  have hmem : ∀ {r}, r ∈ roster → r ≠ (id, key) → r ∈ rest := by
    intro r hr hne
    exact (List.mem_cons.mp (hperm.symm.subset hr)).resolve_left hne
  constructor
  · intro id'
    have hcount := hperm.countP_eq fun r => r.1 = id'
    rw [List.countP_cons] at hcount
    by_cases hid : id' = id
    · subst hid
      simp only [Function.update_self, h.active, ← hcount]
      simp
    · simp only [Function.update_of_ne hid, h.active, ← hcount]
      simp [Ne.symm hid]
  · intro id'
    cases key with
    | none => exact h.nodup id'
    | some k =>
      by_cases hid : id' = id
      · subst hid
        simp only [removePartition, Function.update_self]
        exact (h.nodup id').erase k
      · simpa only [removePartition, Function.update_of_ne hid] using h.nodup id'
  · intro id' k' hk
    cases key with
    | none => exact hmem (h.partition id' k' hk) (by simp)
    | some k =>
      by_cases hid : id' = id
      · subst hid
        simp only [removePartition, Function.update_self] at hk
        obtain ⟨hne, hin⟩ := (h.nodup id').mem_erase_iff.mp hk
        exact hmem (h.partition id' k' hin) (by simp [hne])
      · simp only [removePartition, Function.update_of_ne hid] at hk
        exact hmem (h.partition id' k' hk) (by simp [hid])
  · intro d hpos
    have hcount := hperm.countP_eq fun r => atLeast config d r.1
    have hslot := h.slots d
    rw [List.countP_cons] at hcount
    omega

end roster

/-! ### The queue -/

section backlog
variable {config : FlowConfig} {pending pending' : List WorkItem} {db : Option Database}

/-- What is left of the queue, on a repository in which its rows are as before. -/
theorem Backlog.keep {db' : Option Database} (h : Backlog config pending db)
    (hsub : pending'.Subperm pending)
    (hrows : ∀ w ∈ pending', ∀ q d d', w.queueId = some q → db = some d → db' = some d' →
      d.statusOf q = some .pending → d'.statusOf q = some .pending)
    (hdb : db.isSome = db'.isSome) : Backlog config pending' db' where
  seeds := fun w hw => h.seeds w (hsub.subset hw)
  rows := by
    intro w hw q d' hq hd'
    obtain ⟨d, hd⟩ : ∃ d, db = some d := by
      rw [← Option.isSome_iff_exists, hdb, hd']
      rfl
    exact hrows w hw q d d' hq hd hd' (h.rows w (hsub.subset hw) q d hq hd)
  nodup := by
    obtain ⟨l, hperm, hsubl⟩ := hsub
    have hn := h.nodup.sublist (hsubl.filterMap WorkItem.queueId)
    exact (hperm.filterMap WorkItem.queueId).nodup_iff.mp hn

/-- A row of the queue is not dropped: its claim succeeds. -/
theorem Backlog.claim {d : Database} {w : WorkItem} {q : String} (h : Backlog config pending db)
    (hw : w ∈ pending) (hq : w.queueId = some q) (hd : db = some d) (now : ℤ) :
    (d.claim now q).1 = true :=
  (Database.guardedUpdate_hit d now q .pending _ _ _ _ (h.rows w hw q d hq hd)).1

end backlog

/-! ### Steps -/

variable {σ : Setup} {s t : State}

theorem map_set_of_eq {α β : Type} {l : List α} {i : ℕ} {x y : α} (f : α → β)
    (h : l[i]? = some x) (hf : f y = f x) : (l.set i y).map f = l.map f := by
  induction l generalizing i with
  | nil => rfl
  | cons z l ih =>
    cases i with
    | zero =>
      cases Option.some.inj h
      simp only [List.set_cons_zero, List.map_cons, hf]
    | succ i => simp only [List.set_cons_succ, List.map_cons, ih h]

/-- Where `Coherent` looks at a state. -/
theorem Coherent.frame (h : Coherent σ s) (hr : t.roster = s.roster)
    (ha : t.active = s.active) (hp : t.partitions = s.partitions) (hq : t.pending = s.pending)
    (hd : t.db = s.db) (hc : t.channel.length ≤ σ.config.engine.queueCapacity)
    (hx : ∀ x ∈ t.running, x ∈ s.running ∨ x.permit = true) : Coherent σ t where
  roster := by
    rw [hr, ha, hp]
    exact h.roster
  backlog := by
    rw [hq, hd]
    exact h.backlog
  channel := hc
  permits := by
    intro x hmem hpermit
    rcases hx x hmem with hin | htrue
    · exact h.permits x hin hpermit
    · rw [hpermit] at htrue
      cases htrue

theorem Coherent.set (h : Coherent σ s) {i : ℕ} {x y : Task} (hx : s.running[i]? = some x)
    (hr : t.running = s.running.set i y) (hid : y.processorId = x.processorId)
    (hkey : y.partitionKey = x.partitionKey) (hy : y.permit = true) (ha : t.active = s.active)
    (hp : t.partitions = s.partitions) (hq : t.pending = s.pending) (hd : t.db = s.db)
    (hc : t.channel.length ≤ σ.config.engine.queueCapacity) : Coherent σ t := by
  refine h.frame ?_ ha hp hq hd hc fun z hz => ?_
  · rw [State.roster, hr]
    exact map_set_of_eq _ hx (by rw [hid, hkey])
  · rw [hr] at hz
    rcases List.mem_or_eq_of_mem_set hz with hz | rfl
    · exact .inl hz
    · exact .inr hy

/-- A start takes its item out of the queue and claims its row. -/
theorem Coherent.start (h : Coherent σ s) {input : ScheduleInput} {w : WorkItem}
    {p : ProcessorConfig} {key : Option String} {db : Option Database}
    {pending dropped : List WorkItem} (hperm : (w :: pending ++ dropped).Perm s.pending)
    (hst : Startable σ input s w p key db) : Coherent σ (s.start σ w p key db pending) := by
  have hsub : pending.Subperm s.pending := by
    have hl : pending.Sublist (w :: pending ++ dropped) :=
      (List.sublist_append_left pending dropped).trans (List.sublist_cons_self w _)
    exact hl.subperm.trans hperm.subperm
  constructor
  · have hroster : (s.start σ w p key db pending).roster = s.roster ++ [(w.processorId, key)] := by
      simp only [State.roster, State.start, List.map_append, taskOf]
      rfl
    rw [hroster]
    refine h.roster.start ?_ hst.partition
    simpa only [State.roster, List.length_map] using hst.slots
  · rcases hst.claim with ⟨hdb, _⟩ | ⟨d, d', q, hd, hw, hdb, hclaim⟩
    · refine h.backlog.keep hsub (fun x _ q' e e' _ he he' hp => ?_) (by simp only [State.start, hdb])
      have heq : some e = some e' := by rw [← he, ← he', ← hdb]; rfl
      cases heq
      exact hp
    · obtain ⟨_, _, hstatus⟩ := Database.claim_spec hclaim
      have hn : ((w :: pending ++ dropped).filterMap WorkItem.queueId).Nodup :=
        (hperm.filterMap WorkItem.queueId).nodup_iff.mpr h.backlog.nodup
      rw [List.cons_append, List.filterMap_cons, hw] at hn
      refine h.backlog.keep hsub (fun x hx q' e e' hq he he' hp => ?_) (by simp [State.start, hdb, hd])
      have he'' : some d' = some e' := by rw [← hdb]; exact he'
      cases he''
      rw [hd] at he
      cases he
      have hne : q' ≠ q := by
        rintro rfl
        refine (List.nodup_cons.mp hn).1 (List.mem_filterMap.mpr ⟨x, ?_, hq⟩)
        exact List.mem_append_left _ hx
      rw [hstatus, if_neg hne]
      exact hp
  · exact h.channel
  · intro x hx hpermit
    rcases List.mem_append.mp hx with hx | hx
    · exact h.permits x hx hpermit
    · rw [List.mem_singleton.mp hx] at hpermit ⊢
      simpa [taskOf] using hpermit

theorem Schedules.coherent {input : ScheduleInput} {backlog : ℕ}
    (hs : Schedules σ input backlog s t) (h : Coherent σ s) :
    (∃ exit, t.phase = .ended exit) ∨ Coherent σ t := by
  induction hs with
  | @idle s pending dropped hperm _ _ =>
    have hsub : pending.Subperm s.pending :=
      (List.sublist_append_left pending dropped).subperm.trans hperm.subperm
    have hb : Backlog σ.config pending s.db := by
      refine h.backlog.keep hsub (fun x _ q d d' _ hd hd' hp => ?_) rfl
      rw [hd] at hd'
      cases hd'
      exact hp
    exact .inr ⟨h.roster, hb, h.channel, h.permits⟩
  | start hperm _ hst _ ih => exact ih (h.start hperm hst)
  | stop => exact .inl ⟨_, rfl⟩

/-- Publishing appends to the queue items whose rows are pending. -/
theorem Publishes.backlog {e : ProcessorEmission} {ks : List ConnectionConfig}
    (hp : Publishes σ e s ks t) (h : Backlog σ.config s.pending s.db) :
    Backlog σ.config t.pending t.db := by
  induction hp with
  | nil => exact h
  | @volatile s t k ks hnone _ ih =>
    refine ih ⟨fun w hw hseed => ?_, fun w hw q d hq hd => ?_, ?_⟩
    · rcases List.mem_append.mp hw with hw | hw
      · exact h.seeds w hw hseed
      · rw [List.mem_singleton.mp hw] at hseed
        cases hseed
    · have hd' : s.db = some d := hd
      rw [hnone] at hd'
      cases hd'
    · simp only [State.push, List.filterMap_append, List.filterMap_cons, List.filterMap_nil,
        List.append_nil]
      exact h.nodup
  | @durable s t k ks now queueId d d' hd hrow _ ih =>
    obtain ⟨hfresh, _, _, hstatus⟩ := enqueueRow_spec hrow
    have hold : ∀ w ∈ s.pending, ∀ q, w.queueId = some q → d.statusOf q = some .pending :=
      fun w hw q hq => h.rows w hw q d hq hd
    refine ih ⟨fun w hw hseed => ?_, fun w hw q e' hq he' => ?_, ?_⟩
    · rcases List.mem_append.mp hw with hw | hw
      · exact h.seeds w hw hseed
      · rw [List.mem_singleton.mp hw] at hseed
        cases hseed
    · have he'' : some d' = some e' := he'
      cases he''
      rw [hstatus]
      rcases List.mem_append.mp hw with hw | hw
      · rw [hold w hw q hq, ite_self]
      · rw [List.mem_singleton.mp hw] at hq
        cases hq
        rw [if_pos rfl]
    · simp only [State.pushRow, State.push, List.filterMap_append, List.filterMap_cons,
        List.filterMap_nil]
      refine List.nodup_append.mpr ⟨h.nodup, List.nodup_singleton _, fun a ha b hb hab => ?_⟩
      obtain ⟨w, hw, hq⟩ := List.mem_filterMap.mp ha
      have hbad := hold w hw a hq
      rw [hab, List.mem_singleton.mp hb, hfresh] at hbad
      cases hbad

theorem Coherent.publishes {e : ProcessorEmission} {ks : List ConnectionConfig}
    (h : Coherent σ s) (hp : Publishes σ e s ks t) : Coherent σ t := by
  have hb := hp.backlog h.backlog
  rw [hp.frame] at hb ⊢
  exact ⟨h.roster, hb, h.channel, h.permits⟩

theorem Coherent.route (h : Coherent σ s) (input : RouteInput) (e : ProcessorEmission)
    (next : Phase) : (∃ exit, (holdUnrouted e next (routeEmission σ input s e)).phase =
      .ended exit) ∨ Coherent σ (holdUnrouted e next (routeEmission σ input s e)) := by
  rcases routeEmission_cases σ input s e with
    ⟨u, hu, hp⟩ | ⟨hu, _⟩ | ⟨error, hu, _⟩ | ⟨error, _, u, done, hu, _⟩ <;> rw [hu]
  · have hc := h.publishes hp
    exact .inr ⟨hc.roster, hc.backlog, hc.channel, hc.permits⟩
  · exact .inr ⟨h.roster, h.backlog, h.channel, h.permits⟩
  · exact .inr ⟨h.roster, h.backlog, h.channel, h.permits⟩
  · exact .inl ⟨_, rfl⟩

theorem roster_erase {i : ℕ} {x : Task} (h : s.running[i]? = some x) :
    ((x.processorId, x.partitionKey) ::
      (s.running.eraseIdx i).map fun x => (x.processorId, x.partitionKey)).Perm s.roster := by
  obtain ⟨hi, rfl⟩ := List.getElem?_eq_some_iff.mp h
  exact (List.getElem_cons_eraseIdx_perm hi).map fun x => (x.processorId, x.partitionKey)

theorem Coherent.join (h : Coherent σ s) {i : ℕ} {x : Task} (hx : s.running[i]? = some x)
    (now : ℤ) : (∃ exit, (s.complete i x now).phase = .ended exit) ∨
      Coherent σ (s.complete i x now) := by
  have hrows : Backlog σ.config s.pending (s.complete i x now).db := by
    cases hdb : s.db with
    | none =>
      rw [complete_db_none i x now hdb, ← hdb]
      exact h.backlog
    | some d =>
      have hkeep : ∀ d', (∀ q, d.statusOf q = some .pending → d'.statusOf q = some .pending) →
          Backlog σ.config s.pending (some d') := by
        intro d' hd'
        refine h.backlog.keep (List.Subperm.refl _) (fun w _ q e e' _ he he' hp => ?_) (by rw [hdb]; rfl)
        rw [hdb] at he
        cases he
        cases he'
        exact hd' q hp
      rcases complete_db i x now hdb with
        ⟨hc, _⟩ | ⟨q, error, attempt, _, _, hc⟩ | ⟨q, _, _, hc⟩ <;> rw [hc]
      · exact hkeep d fun _ hq => hq
      · refine hkeep _ fun q' hq' => ?_
        rw [Database.fail_statusOf, if_neg]
        · exact hq'
        · rintro ⟨rfl, hr⟩
          rw [hq'] at hr
          cases hr
      · refine hkeep _ fun q' hq' => ?_
        rw [Database.complete_statusOf, if_neg]
        · exact hq'
        · rintro ⟨rfl, hr⟩
          rw [hq'] at hr
          cases hr
  have hroster := h.roster.erase (roster_erase hx)
  have hpermits : ∀ y ∈ s.running.eraseIdx i, y.permit = false → pooled y.mode = true :=
    fun y hy => h.permits y (List.mem_of_mem_eraseIdx hy)
  unfold State.complete at hrows ⊢
  split
  · exact .inl ⟨_, rfl⟩
  next failure hout =>
    rw [hout] at hrows
    exact .inr ⟨hroster, hrows, h.channel, hpermits⟩

theorem Coherent.emit (h : Coherent σ s) {i : ℕ} {x : Task} {relationship : String}
    {packet : DataPacket} {rest : List (String × DataPacket)} (hx : s.running[i]? = some x)
    (hpermit : x.permit = true) (hs : s.emit σ i x relationship packet rest = some t) :
    Coherent σ t := by
  unfold State.emit at hs
  simp only at hs
  split_ifs at hs with hroutes hplace <;> cases hs
  · exact h.set hx rfl rfl rfl hpermit rfl rfl rfl rfl h.channel
  · refine h.set hx rfl rfl rfl hpermit rfl rfl rfl rfl ?_
    rw [List.length_append, List.length_singleton]
    omega

theorem step_coherent {a : Action} (h : Coherent σ s) (hs : step σ s a = some t) :
    (∃ exit, t.phase = .ended exit) ∨ Coherent σ t := by
  obtain ⟨_, htr⟩ := step_transition hs
  cases htr with
  | abort | leave | finish | giveUp | stall | deadlock => exact .inl ⟨_, rfl⟩
  | control | resume | select | maintain =>
    exact .inr ⟨h.roster, h.backlog, h.channel, h.permits⟩
  | acquire hx => exact .inr (h.set hx rfl rfl rfl rfl rfl rfl rfl rfl h.channel)
  | emit hx hpermit _ hemit => exact .inr (h.emit hx hpermit hemit)
  | route =>
    have hc : Coherent σ { s with deferred := none } :=
      ⟨h.roster, h.backlog, h.channel, h.permits⟩
    exact hc.route _ _ _
  | @schedule input =>
    rcases scheduleAvailable_cases σ input s with ⟨_, heq⟩ | ⟨_, hsch⟩
    · rw [heq]
      exact .inr ⟨h.roster, h.backlog, h.channel, h.permits⟩
    · exact hsch.coherent h
  | @refill _ rest _ _ _ _ hchan =>
    have hlen := h.channel
    rw [hchan, List.length_cons] at hlen
    have hrest : rest.length ≤ σ.config.engine.queueCapacity := Nat.le_of_succ_le hlen
    exact .inr ⟨h.roster, h.backlog, hrest, h.permits⟩
  | join _ hx => exact h.join hx _
  | @receive _ _ rest _ _ hchan =>
    have hlen := h.channel
    rw [hchan, List.length_cons] at hlen
    have hc : Coherent σ { s with channel := rest } :=
      ⟨h.roster, h.backlog, Nat.le_of_succ_le hlen, h.permits⟩
    exact hc.route _ _ _

/-! ### Runs -/

theorem sourceSeeds_mem {config : FlowConfig} {packetId : ℕ → String} {w : WorkItem}
    (h : w ∈ sourceSeeds config packetId) :
    w.queueId = none ∧ ∀ k ∈ config.connections, k.target ≠ w.processorId := by
  obtain ⟨i, hi, rfl⟩ := List.mem_mapIdx.mp h
  refine ⟨rfl, ?_⟩
  have hmem := (List.mem_filter.mp (List.getElem_mem hi)).2
  simpa using hmem

/-- The loop starts in a coherent state. -/
theorem start_coherent {l : Launch} (h : start σ l = .ok s) : Coherent σ s := by
  have hroster : Roster σ.config [] (fun _ => 0) fun _ => [] :=
    ⟨fun _ => rfl, fun _ => List.nodup_nil, by simp, by simp⟩
  have hinit : ∀ recovered db, Backlog σ.config recovered db →
      Coherent σ (.init σ l.packetId recovered db) := by
    intro recovered db hb
    refine ⟨hroster, ?_, Nat.zero_le _, by simp [State.init]⟩
    by_cases hr : recovered.isEmpty
    · simp only [State.init, if_pos hr]
      refine ⟨fun w hw _ => (sourceSeeds_mem hw).2, fun w hw q d hq => ?_, ?_⟩
      · rw [(sourceSeeds_mem hw).1] at hq
        cases hq
      · rw [List.filterMap_eq_nil_iff.mpr fun w hw => (sourceSeeds_mem hw).1]
        exact List.nodup_nil
    · simp only [State.init, if_neg hr]
      exact hb
  unfold start at h
  split at h
  · split at h
    · cases h
    next recovered db hrec =>
      cases h
      refine hinit recovered _ ?_
      have hall := recover_ok hrec
      have hids : recovered.map WorkItem.queueId =
          (pendingRows db σ.config.id).map fun row => some row.queueId := by
        clear hrec
        generalize pendingRows db σ.config.id = rows at hall
        induction hall with
        | nil => rfl
        | cons hrow _ ih =>
          obtain ⟨stored, hm, _, _, _, hq⟩ := hrow
          rw [List.map_cons, List.map_cons, ih, hq, (materialize_ok σ.codec hm).1]
      have hq : ∀ w ∈ recovered, ∃ row ∈ pendingRows db σ.config.id,
          w.queueId = some row.queueId := by
        intro w hw
        have hmem : w.queueId ∈ recovered.map WorkItem.queueId := List.mem_map_of_mem hw
        rw [hids] at hmem
        obtain ⟨row, hrow, heq⟩ := List.mem_map.mp hmem
        exact ⟨row, hrow, heq.symm⟩
      refine ⟨fun w hw hseed => ?_, fun w hw q d hwq hd => ?_, ?_⟩
      · obtain ⟨row, _, hrow⟩ := hq w hw
        simp [WorkItem.isSourceSeed, hrow] at hseed
      · obtain ⟨row, hmem, hrow⟩ := hq w hw
        cases hd
        rw [hrow] at hwq
        cases hwq
        exact pendingRows_status hmem
      · have hfm : recovered.filterMap WorkItem.queueId =
            (pendingRows db σ.config.id).map Row.queueId := by
          have hid := congrArg (List.filterMap id) hids
          simpa [List.filterMap_map, Function.comp_def] using hid
        rw [hfm]
        exact pendingRows_nodup db σ.config.id
  · cases h
    exact hinit [] none ⟨by simp, by simp, List.nodup_nil⟩

end Jaiba.Engine
