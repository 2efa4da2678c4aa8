import Jaiba.Engine.Backlog
import Jaiba.Engine.Delivery

/-!
# The queue of a run and the rows of the repository

A run keeps its work twice: in its queue and its tasks, and in the rows of the
packet queue. As long as the run has not failed the two agree, and the rows of
other flows in the same database stay as they are.
-/

namespace Jaiba.Engine
open Jaiba.Lib Jaiba.Control Jaiba.Repository

/-- The rows of a flow are those of the queue and of the tasks, apart from those
that were `RUNNING` before; rows of other flows are as they were in `first`. -/
structure Agrees (flow : String) (first : Database) (pending : List WorkItem) (running : List Task)
    (db : Database) : Prop where
  queued : ∀ w ∈ pending, ∀ q, w.queueId = some q → ∃ row, db.queue.find? q = some row ∧
    row.flowId = flow ∧ row.processorId = w.processorId ∧ row.status = .pending
  held : ∀ x ∈ running, ∀ q, x.queueId = some q → ∃ row, db.queue.find? q = some row ∧
    row.flowId = flow ∧ row.processorId = x.processorId ∧ row.status = .running
  pending : ∀ q row, db.queue.find? q = some row → row.flowId = flow → row.status = .pending →
    ∃ w ∈ pending, w.queueId = some q
  running : ∀ q row, db.queue.find? q = some row → row.flowId = flow → row.status = .running →
    (∃ x ∈ running, x.queueId = some q) ∨ first.statusOf q = some .running
  others : ∀ q row, row.flowId ≠ flow → (db.queue.find? q = some row ↔ first.queue.find? q = some row)

section agrees
variable {flow : String} {first db db' : Database} {pending pending' : List WorkItem}
  {running running' : List Task} {q : String} {row' : Row}

/-- Items without a row come and go, and tasks take their steps. -/
theorem Agrees.frame (h : Agrees flow first pending running db)
    (hpending : ∀ w, w.queueId.isSome → (w ∈ pending' ↔ w ∈ pending))
    (hold : ∀ x ∈ running', ∀ q, x.queueId = some q →
      ∃ y ∈ running, y.queueId = some q ∧ y.processorId = x.processorId)
    (hnew : ∀ x ∈ running, ∀ q, x.queueId = some q → ∃ y ∈ running', y.queueId = some q) :
    Agrees flow first pending' running' db where
  queued := by
    intro w hw q hq
    exact h.queued w ((hpending w (by rw [hq]; rfl)).mp hw) q hq
  held := by
    intro x hx q hq
    obtain ⟨y, hy, hyq, hid⟩ := hold x hx q hq
    rw [← hid]
    exact h.held y hy q hyq
  pending := by
    intro q row hrow hflow hstatus
    obtain ⟨w, hw, hq⟩ := h.pending q row hrow hflow hstatus
    exact ⟨w, (hpending w (by rw [hq]; rfl)).mpr hw, hq⟩
  running := by
    intro q row hrow hflow hstatus
    refine (h.running q row hrow hflow hstatus).imp_left fun ⟨x, hx, hq⟩ => ?_
    exact hnew x hx q hq
  others := h.others

/-- One row of the flow is written, and what stands for it changes with it. -/
theorem Agrees.write (h : Agrees flow first pending running db)
    (hfind : ∀ q', db'.queue.find? q' = if q' = q then some row' else db.queue.find? q')
    (hold : ∀ row, db.queue.find? q = some row → row.flowId = flow) (hflow : row'.flowId = flow)
    (hpending : ∀ w ∈ pending', ∀ q', w.queueId = some q' →
      (q' = q → row'.processorId = w.processorId ∧ row'.status = .pending) ∧ (q' ≠ q → w ∈ pending))
    (hrunning : ∀ x ∈ running', ∀ q', x.queueId = some q' →
      (q' = q → row'.processorId = x.processorId ∧ row'.status = .running) ∧ (q' ≠ q → x ∈ running))
    (hrow : (row'.status = .pending → ∃ w ∈ pending', w.queueId = some q) ∧
      (row'.status = .running → ∃ x ∈ running', x.queueId = some q))
    (hrest : (∀ w ∈ pending, w.queueId ≠ some q → w ∈ pending') ∧
      ∀ x ∈ running, x.queueId ≠ some q → x ∈ running') :
    Agrees flow first pending' running' db' where
  queued := by
    intro w hw q' hq'
    obtain ⟨hsame, hother⟩ := hpending w hw q' hq'
    rw [hfind]
    split_ifs with heq
    · exact ⟨row', rfl, hflow, hsame heq⟩
    · exact h.queued w (hother heq) q' hq'
  held := by
    intro x hx q' hq'
    obtain ⟨hsame, hother⟩ := hrunning x hx q' hq'
    rw [hfind]
    split_ifs with heq
    · exact ⟨row', rfl, hflow, hsame heq⟩
    · exact h.held x (hother heq) q' hq'
  pending := by
    intro q' row hq' hrowFlow hstatus
    rw [hfind] at hq'
    split_ifs at hq' with heq
    · cases hq'
      rw [heq]
      exact hrow.1 hstatus
    · obtain ⟨w, hw, hwq⟩ := h.pending q' row hq' hrowFlow hstatus
      refine ⟨w, hrest.1 w hw ?_, hwq⟩
      rw [hwq]
      exact fun he => heq (Option.some.inj he)
  running := by
    intro q' row hq' hrowFlow hstatus
    rw [hfind] at hq'
    split_ifs at hq' with heq
    · cases hq'
      rw [heq]
      exact .inl (hrow.2 hstatus)
    · rcases h.running q' row hq' hrowFlow hstatus with ⟨x, hx, hxq⟩ | hfirst
      · refine .inl ⟨x, hrest.2 x hx ?_, hxq⟩
        rw [hxq]
        exact fun he => heq (Option.some.inj he)
      · exact .inr hfirst
  others := by
    intro q' row hne
    rw [hfind]
    split_ifs with heq
    · rw [heq]
      refine iff_of_false (fun he => hne ?_) fun he => hne ?_
      · rw [← Option.some.inj he]
        exact hflow
      · exact hold row ((h.others q row hne).mpr he)
    · exact h.others q' row hne

end agrees

/-! ### Steps -/

/-- A guarded update of a row in its guard state, row by row. -/
theorem guardedUpdate_row {db : Database} {queueId : String} {guard : Status} (now : ℤ) (set : Row → Row)
    (hset : ∀ r, (set r).queueId = r.queueId) (event : ProvenanceEvent) (details : Json) {row : Row}
    (hrow : db.queue.find? queueId = some row) (hstatus : row.status = guard) (q : String) :
    (db.guardedUpdate now queueId guard set hset event details).2.queue.find? q =
      if q = queueId then some (set row) else db.queue.find? q := by
  have hguard : db.statusOf queueId = some guard := by
    rw [Database.statusOf, hrow, Option.map_some, hstatus]
  rw [(Database.guardedUpdate_hit db now queueId guard set hset event details hguard).2.1]
  split_ifs with hq
  · rw [hq, hrow]
    rfl
  · rfl

section steps
variable {σ : Setup} {input : ScheduleInput} {backlog : ℕ} {first db : Database} {s t : State}

theorem nodup_other {pending rest : List WorkItem} {w : WorkItem} {q : String}
    (hn : (pending.filterMap WorkItem.queueId).Nodup) (hperm : (w :: rest).Perm pending)
    (hw : w.queueId = some q) : ∀ v ∈ rest, v.queueId ≠ some q := by
  intro v hv hq
  have hn' := (hperm.filterMap WorkItem.queueId).nodup_iff.mpr hn
  rw [List.filterMap_cons, hw] at hn'
  exact (List.nodup_cons.mp hn').1 (List.mem_filterMap.mpr ⟨v, hv, hq⟩)

/-- A start takes its item out of the queue, and its row with it. -/
theorem Agrees.start {w : WorkItem} {p : ProcessorConfig} {key : Option String} {d : Option Database}
    {pending dropped : List WorkItem} (h : Agrees σ.config.id first s.pending s.running db)
    (hdb : s.db = some db) (hc : Coherent σ s) (hperm : (w :: pending ++ dropped).Perm s.pending)
    (hdrop : Dropped σ input backlog s dropped) (hst : Startable σ input s w p key d) :
    ∃ db', d = some db' ∧
      Agrees σ.config.id first pending (s.running ++ [taskOf σ w p key]) db' := by
  have hnone : dropped = [] := by
    refine List.eq_nil_iff_forall_not_mem.mpr fun v hv => ?_
    exact not_dropped hc (hperm.subset (List.mem_append_right _ hv)) (hdrop v hv)
  rw [hnone, List.append_nil] at hperm
  have hmem : ∀ v, v ∈ s.pending ↔ v = w ∨ v ∈ pending := fun v =>
    hperm.symm.mem_iff.trans List.mem_cons
  rcases hst.claim with ⟨hsame, hno⟩ | ⟨d₀, d', q, hd₀, hw, rfl, hclaim⟩
  · have hw : w.queueId = none := by
      rcases hno with hno | hno
      · rw [hdb] at hno
        cases hno
      · exact hno
    refine ⟨db, hsame.trans hdb, h.frame (fun v hv => ?_) (fun x hx q hq => ?_) fun x hx q hq => ?_⟩
    · rw [hmem, or_iff_right]
      rintro rfl
      rw [hw] at hv
      cases hv
    · rcases List.mem_append.mp hx with hx | hx
      · exact ⟨x, hx, hq, rfl⟩
      · rw [List.mem_singleton.mp hx] at hq
        rw [show w.queueId = some q from hq] at hw
        cases hw
    · exact ⟨x, List.mem_append_left _ hx, hq⟩
  · rw [hdb] at hd₀
    cases hd₀
    have hin : w ∈ s.pending := (hmem w).mpr (.inl rfl)
    obtain ⟨row, hrow, hflow, hid, hstatus⟩ := h.queued w hin q hw
    have hother := nodup_other hc.backlog.nodup hperm hw
    have hfind := fun q' => guardedUpdate_row input.now
      (fun r => { r with status := .running, claimedAt := some input.now }) (fun _ => rfl) .claimed
      (.object [("status", .string "RUNNING")]) hrow hstatus q'
    rw [Database.claim] at hclaim
    rw [hclaim] at hfind
    refine ⟨d', rfl, h.write hfind (fun r hr => ?_) hflow (fun v hv q' hq' => ⟨?_, fun _ => ?_⟩)
      (fun x hx q' hq' => ?_) ⟨fun hp => ?_, fun _ => ?_⟩ ⟨fun v hv hne => ?_, fun x hx _ => ?_⟩⟩
    · rw [hrow] at hr
      rw [← Option.some.inj hr]
      exact hflow
    · rintro rfl
      exact absurd hq' (hother v hv)
    · exact (hmem v).mpr (.inr hv)
    · rcases List.mem_append.mp hx with hx | hx
      · refine ⟨fun he => ?_, fun _ => hx⟩
        -- a task has its row RUNNING, the item has it PENDING
        obtain ⟨row', hrow', -, -, hrunning⟩ := h.held x hx q' hq'
        rw [he, hrow] at hrow'
        cases hrow'
        rw [hstatus] at hrunning
        cases hrunning
      · rw [List.mem_singleton.mp hx] at hq' ⊢
        have hqq : q' = q := Option.some.inj (hq'.symm.trans hw)
        exact ⟨fun _ => ⟨hid, rfl⟩, fun hne => absurd hqq hne⟩
    · cases hp
    · exact ⟨taskOf σ w p key, List.mem_append_right _ List.mem_cons_self, hw⟩
    · rcases (hmem v).mp hv with rfl | hv
      · exact absurd hw hne
      · exact hv
    · exact List.mem_append_left _ hx

/-- The run has ended otherwise than by its own end. -/
def State.Failed (s : State) : Prop := ∃ exit, s.phase = .ended exit ∧ exit ≠ .finished

theorem decide?_stop {w : WorkItem} {exit : Exit} (h : decide? σ input backlog s w = .stop exit) :
    exit ≠ .finished := by
  unfold decide? at h
  split at h
  · cases h
  · split at h
    · cases h
      nofun
    · split at h
      · cases h
      · split at h
        · cases h
        · split at h
          · cases h
            nofun
          · split at h
            · cases h
            · split at h
              · split at h
                · cases h
                  nofun
                · split at h <;> cases h
              · cases h

theorem Schedules.agrees (hs : Schedules σ input backlog s t) (hdb : s.db = some db) (hc : Coherent σ s)
    (h : Agrees σ.config.id first s.pending s.running db) :
    t.Failed ∨ ∃ db', t.db = some db' ∧ Agrees σ.config.id first t.pending t.running db' := by
  induction hs generalizing db with
  | @idle s pending dropped hperm hdrop _ =>
    refine .inr ⟨db, hdb, h.frame (fun v _ => ?_) (fun x hx q hq => ⟨x, hx, hq, rfl⟩) fun x hx q hq => ⟨x, hx, hq⟩⟩
    refine ⟨fun hv => hperm.subset (List.mem_append_left _ hv), fun hv => ?_⟩
    rcases List.mem_append.mp (hperm.symm.subset hv) with hv' | hv'
    · exact hv'
    · exact absurd (hdrop v hv') (not_dropped hc hv)
  | start hperm hdrop hst _ ih =>
    obtain ⟨db', rfl, hagrees⟩ := h.start hdb hc hperm hdrop hst
    exact ih rfl (hc.start hperm hst) hagrees
  | @stop s w exit _ hstop => exact .inl ⟨exit, rfl, decide?_stop hstop⟩

theorem recordEvent_find? (db : Database) (now : ℤ) (queueId : String) (event : ProvenanceEvent)
    (details : Json) (q : String) :
    (db.recordEvent now queueId event details).queue.find? q = db.queue.find? q := by
  rw [Database.recordEvent, Database.insertProvenance_queue]

/-- A connection gets its item and the row of it together. -/
theorem Agrees.enqueue {pending : List WorkItem} {running : List Task} {now : ℤ} {e : ProcessorEmission}
    {k : ConnectionConfig} {queueId : String} {db' : Database} {serial : ℕ}
    (h : Agrees σ.config.id first pending running db) (hrow : enqueueRow σ db now e k queueId = some db') :
    Agrees σ.config.id first
      (pending ++ [⟨k.target, e.packet, some k.connectionId, some queueId, serial⟩]) running db' := by
  obtain ⟨mid, hmid, rfl⟩ := Option.map_eq_some_iff.mp hrow
  obtain ⟨hfresh, hfind, -⟩ := Database.insertPending_spec hmid
  have hnone : db.queue.find? queueId = none := Option.map_eq_none_iff.mp hfresh
  refine h.write (q := queueId) (fun q' => (recordEvent_find? mid _ _ _ _ q').trans (hfind q'))
    (fun row hr => ?_) rfl (fun w hw q' hq' => ?_) (fun x hx q' hq' => ?_)
    ⟨fun _ => ?_, fun hr => ?_⟩ ⟨fun w hw _ => List.mem_append_left _ hw, fun x hx _ => hx⟩
  · rw [hnone] at hr
    cases hr
  · rcases List.mem_append.mp hw with hw | hw
    · refine ⟨fun he => ?_, fun _ => hw⟩
      obtain ⟨row, hr, -⟩ := h.queued w hw q' hq'
      rw [he, hnone] at hr
      cases hr
    · rw [List.mem_singleton.mp hw] at hq' ⊢
      exact ⟨fun _ => ⟨rfl, rfl⟩, fun hne => absurd (Option.some.inj hq').symm hne⟩
  · refine ⟨fun he => ?_, fun _ => hx⟩
    obtain ⟨row, hr, -⟩ := h.held x hx q' hq'
    rw [he, hnone] at hr
    cases hr
  · exact ⟨_, List.mem_append_right _ List.mem_cons_self, rfl⟩
  · cases hr

theorem Agrees.publishes {e : ProcessorEmission} {ks : List ConnectionConfig} (hp : Publishes σ e s ks t)
    (hdb : s.db = some db) (h : Agrees σ.config.id first s.pending s.running db) :
    ∃ db', t.db = some db' ∧ Agrees σ.config.id first t.pending t.running db' := by
  induction hp generalizing db with
  | nil => exact ⟨db, hdb, h⟩
  | volatile hnone =>
    rw [hdb] at hnone
    cases hnone
  | durable hd hrow _ ih =>
    rw [hdb] at hd
    cases hd
    exact ih rfl (h.enqueue hrow)

theorem Agrees.route (hdb : s.db = some db) (h : Agrees σ.config.id first s.pending s.running db)
    (input : RouteInput) (e : ProcessorEmission) (next : Phase) :
    (holdUnrouted e next (routeEmission σ input s e)).Failed ∨
      ∃ db', (holdUnrouted e next (routeEmission σ input s e)).db = some db' ∧
        Agrees σ.config.id first (holdUnrouted e next (routeEmission σ input s e)).pending
          (holdUnrouted e next (routeEmission σ input s e)).running db' := by
  rcases routeEmission_cases σ input s e with
    ⟨u, hu, hp⟩ | ⟨hu, -⟩ | ⟨error, hu, -⟩ | ⟨error, _, u, done, hu, -⟩ <;> rw [hu]
  · obtain ⟨db', hdb', hagrees⟩ := h.publishes hp hdb
    exact .inr ⟨db', hdb', hagrees⟩
  · exact .inr ⟨db, hdb, h⟩
  · exact .inr ⟨db, hdb, h⟩
  · exact .inl ⟨_, rfl, nofun⟩

/-- A joined task gives its row back closed. -/
theorem Agrees.join {i : ℕ} {x : Task} (hi : s.running[i]? = some x) (hdb : s.db = some db)
    (hc : Claimed db s.held) (h : Agrees σ.config.id first s.pending s.running db) (now : ℤ) :
    (s.complete i x now).Failed ∨ ∃ db', (s.complete i x now).db = some db' ∧
      Agrees σ.config.id first (s.complete i x now).pending (s.complete i x now).running db' := by
  unfold State.complete
  split
  next error _ => exact .inl ⟨_, rfl, nofun⟩
  next failure _ =>
    obtain ⟨-, hclosed⟩ := hc.erase hi
    have hperm := List.getElem_cons_eraseIdx_perm (List.getElem?_eq_some_iff.mp hi).1
    rw [(List.getElem?_eq_some_iff.mp hi).2] at hperm
    have hrest : ∀ y ∈ s.running, y.queueId ≠ x.queueId → y ∈ s.running.eraseIdx i := by
      intro y hy hne
      rcases List.mem_cons.mp (hperm.symm.subset hy) with rfl | hy
      · exact absurd rfl hne
      · exact hy
    dsimp only
    cases hq : x.queueId with
    | none =>
      refine .inr ⟨db, by rw [hdb]; rfl, h.frame (fun _ _ => Iff.rfl)
        (fun y hy q hyq => ⟨y, List.mem_of_mem_eraseIdx hy, hyq, rfl⟩) fun y hy q hyq => ⟨y, hrest y hy ?_, hyq⟩⟩
      rw [hyq, hq]
      nofun
    | some q =>
      obtain ⟨row, hrow, hflow, hid, hstatus⟩ := h.held x (List.mem_of_getElem? hi) q hq
      have hclose : ∀ (db' : Database) (row' : Row),
          (∀ q', db'.queue.find? q' = if q' = q then some row' else db.queue.find? q') →
          row'.flowId = row.flowId → row'.status ≠ .pending → row'.status ≠ .running →
          Agrees σ.config.id first s.pending (s.running.eraseIdx i) db' := by
        intro db' row' hfind hsame hpending hrunning
        refine h.write hfind (fun r hr => ?_) (hsame.trans hflow) (fun w hw q' hq' => ⟨fun he => ?_, fun _ => hw⟩)
          (fun y hy q' hq' => ⟨fun he => ?_, fun _ => List.mem_of_mem_eraseIdx hy⟩)
          ⟨fun hp => absurd hp hpending, fun hr => absurd hr hrunning⟩ ⟨fun w hw _ => hw, fun y hy hne => ?_⟩
        · rw [hrow] at hr
          rw [← Option.some.inj hr]
          exact hflow
        · -- the row of an item is PENDING
          obtain ⟨row₀, hrow₀, -, -, hp⟩ := h.queued w hw q' hq'
          rw [he, hrow] at hrow₀
          cases hrow₀
          rw [hstatus] at hp
          cases hp
        · refine absurd (List.mem_filterMap.mpr ⟨y, hy, ?_⟩) (hclosed q hq).2
          rw [hq', he]
        · exact hrest y hy (by rw [hq]; exact hne)
      rw [hdb]
      cases failure with
      | none =>
        exact .inr ⟨_, rfl, hclose _ _ (guardedUpdate_row now _ _ _ _ hrow hstatus) rfl nofun nofun⟩
      | some failure =>
        exact .inr ⟨_, rfl, hclose _ _ (guardedUpdate_row now _ _ _ _ hrow hstatus) rfl nofun nofun⟩

/-- Where the tasks take steps of their own. -/
theorem Agrees.set {i : ℕ} {x y : Task} (h : Agrees σ.config.id first s.pending s.running db)
    (hx : s.running[i]? = some x) (hq : y.queueId = x.queueId) (hid : y.processorId = x.processorId) :
    Agrees σ.config.id first s.pending (s.running.set i y) db := by
  have hi := (List.getElem?_eq_some_iff.mp hx).1
  refine h.frame (fun _ _ => Iff.rfl) (fun z hz q hzq => ?_) fun z hz q hzq => ?_
  · rcases List.mem_or_eq_of_mem_set hz with hz | rfl
    · exact ⟨z, hz, hzq, rfl⟩
    · exact ⟨x, List.mem_of_getElem? hx, hq ▸ hzq, hid.symm⟩
  · obtain ⟨j, hj⟩ := List.mem_iff_getElem?.mp hz
    by_cases hji : i = j
    · subst hji
      rw [hx] at hj
      cases hj
      exact ⟨y, List.mem_set hi y, hq.trans hzq⟩
    · exact ⟨z, List.mem_iff_getElem?.mpr ⟨j, by rw [List.getElem?_set_ne hji]; exact hj⟩, hzq⟩

theorem step_agrees {a : Action} (hs : step σ s a = some t) (hinv : Inv σ s db) (hc : Coherent σ s)
    (h : Agrees σ.config.id first s.pending s.running db) :
    t.Failed ∨ ∃ db', t.db = some db' ∧ Agrees σ.config.id first t.pending t.running db' := by
  obtain ⟨-, htr⟩ := step_transition hs
  have hdb := hinv.repository
  cases htr with
  | abort | giveUp | stall | deadlock => exact .inl ⟨_, rfl, nofun⟩
  | control | leave | resume | refill | finish | select | maintain => exact .inr ⟨db, hdb, h⟩
  | acquire hx => exact .inr ⟨db, hdb, h.set hx rfl rfl⟩
  | emit hx _ _ hemit =>
    unfold State.emit at hemit
    dsimp only at hemit
    split_ifs at hemit <;> cases hemit <;> exact .inr ⟨db, hdb, h.set hx rfl rfl⟩
  | @route input e => exact Agrees.route (s := { s with deferred := none }) hdb h input e .scheduling
  | @schedule input =>
    rcases scheduleAvailable_cases σ input s with ⟨-, heq⟩ | ⟨-, hsch⟩
    · rw [heq]
      exact .inr ⟨db, hdb, h⟩
    · exact hsch.agrees hdb hc h
  | join _ hx => exact h.join hx hdb hinv.claimed _
  | @receive input e rest => exact Agrees.route (s := { s with channel := rest }) hdb h input e .head

/-! ### The end of a run -/

theorem route_phase (input : RouteInput) (e : ProcessorEmission) (next : Phase) :
    (holdUnrouted e next (routeEmission σ input s e)).Failed ∨
      (holdUnrouted e next (routeEmission σ input s e)).phase = next := by
  rcases routeEmission_cases σ input s e with
    ⟨u, hu, -⟩ | ⟨hu, -⟩ | ⟨error, hu, -⟩ | ⟨error, _, u, done, hu, -⟩ <;> rw [hu]
  · exact .inr rfl
  · exact .inr rfl
  · exact .inr rfl
  · exact .inl ⟨_, rfl, nofun⟩

theorem Schedules.phase (hs : Schedules σ input backlog s t) : t.Failed ∨ t.phase = .checking := by
  induction hs with
  | idle => exact .inr rfl
  | start _ _ _ _ ih => exact ih
  | stop _ hstop => exact .inl ⟨_, rfl, decide?_stop hstop⟩

theorem complete_phase (i : ℕ) (x : Task) (now : ℤ) :
    (s.complete i x now).Failed ∨ (s.complete i x now).phase = .head := by
  unfold State.complete
  split
  · exact .inl ⟨_, rfl, nofun⟩
  · exact .inr rfl

/-- A run that has ended by itself leaves no task, and no work unless it was told to end. -/
def State.Settled (s : State) : Prop := s.phase = .ended .finished →
  s.running = [] ∧ (s.pending = [] ∨ s.control = .draining ∨ s.control = .stopped)

theorem step_settled {a : Action} (hs : step σ s a = some t) : t.Failed ∨ t.Settled := by
  obtain ⟨hlive, htr⟩ := step_transition hs
  have hgoes : ∀ {p : Phase}, t.Failed ∨ t.phase = p → p ≠ .ended .finished → t.Failed ∨ t.Settled :=
    fun h hne => h.imp_right fun hp he => absurd (hp.symm.trans he) hne
  cases htr with
  | abort | giveUp | stall | deadlock => exact .inl ⟨_, rfl, nofun⟩
  | control | acquire => exact .inr fun hp => absurd hp (hlive _)
  | resume | refill | select | maintain => exact .inr nofun
  | leave _ hr hcontrol => exact .inr fun _ => ⟨hr, .inr hcontrol⟩
  | finish _ hpending hr => exact .inr fun _ => ⟨hr, .inl hpending⟩
  | emit _ _ _ hemit =>
    unfold State.emit at hemit
    dsimp only at hemit
    split_ifs at hemit <;> cases hemit <;> exact .inr fun hp => absurd hp (hlive _)
  | route => exact hgoes (route_phase _ _ _) (by simp)
  | schedule =>
    rcases scheduleAvailable_cases σ _ s with ⟨-, heq⟩ | ⟨-, hsch⟩
    · rw [heq]
      exact .inr nofun
    · exact hgoes hsch.phase (by simp)
  | join => exact hgoes (complete_phase _ _ _) (by simp)
  | receive => exact hgoes (route_phase _ _ _) (by simp)

/-- The queue of the run and the repository, as long as the run has not failed. -/
structure Mirrored (σ : Setup) (first : Database) (s : State) (db : Database) : Prop where
  inv : Inv σ s db
  coherent : s.Live → Coherent σ s
  agrees : Agrees σ.config.id first s.pending s.running db
  settled : s.Settled

theorem Mirrored.step {a : Action} (h : Mirrored σ first s db) (hs : Engine.step σ s a = some t) :
    t.Failed ∨ ∃ db', Mirrored σ first t db' := by
  obtain ⟨hlive, -⟩ := step_transition hs
  have hc := h.coherent hlive
  obtain ⟨db', hinv, -⟩ := step_delivered h.inv hs
  rcases step_settled hs with hfailed | hsettled
  · exact .inl hfailed
  · refine (step_agrees hs h.inv hc h.agrees).imp_right fun ⟨d, hd, hagrees⟩ => ⟨db', hinv, fun ht => ?_, ?_, hsettled⟩
    · exact (step_coherent hc hs).resolve_left fun ⟨exit, he⟩ => ht exit he
    · rw [hinv.repository] at hd
      cases hd
      exact hagrees

end steps

/-! ### Runs -/

section runs
variable {σ : Setup} {l : Launch} {s₀ s : State}

/-- The rows as the loop finds them: abandoned ones are `PENDING` again. -/
def Launch.recovered (config : FlowConfig) (l : Launch) : Database :=
  (l.db.recoverAbandoned l.now config.id config.engine.abandonedAfterSeconds).2

theorem start_agrees (henabled : σ.config.engine.repositoryEnabled = true) (hstart : start σ l = .ok s₀) :
    s₀.db = some (l.recovered σ.config) ∧
      Agrees σ.config.id (l.recovered σ.config) s₀.pending s₀.running (l.recovered σ.config) := by
  unfold start at hstart
  rw [if_pos henabled] at hstart
  split at hstart
  · cases hstart
  next items db hrecover =>
    have hdb := recover_db σ l
    rw [hrecover] at hdb
    obtain rfl : db = l.recovered σ.config := hdb
    have hitems := recover_ok hrecover
    generalize l.recovered σ.config = db at hitems hstart ⊢
    cases hstart
    refine ⟨rfl, fun w hw q hq => ?_, fun x hx => absurd hx List.not_mem_nil, fun q row hrow hflow hstatus => ?_,
      fun q row hrow _ hstatus => .inr ?_, fun _ _ _ => Iff.rfl⟩
    · cases items with
      | nil =>
        rw [(sourceSeeds_mem hw).1] at hq
        cases hq
      | cons first items =>
        obtain ⟨row, hrow, stored, hstored, hid, -, -, hqueue⟩ := exists_left hitems hw
        obtain ⟨hname, hprocessor⟩ := materialize_ok σ.codec hstored
        have hmem := (pendingRows_perm db σ.config.id).subset hrow
        rw [List.mem_filter, Bool.and_eq_true, decide_eq_true_eq, decide_eq_true_eq] at hmem
        rw [hqueue, hname] at hq
        rw [← Option.some.inj hq, Table.find?_of_mem hmem.1]
        exact ⟨row, rfl, hmem.2.1, by rw [hid, hprocessor], hmem.2.2⟩
    · have hmem : row ∈ pendingRows db σ.config.id := by
        refine (pendingRows_perm db σ.config.id).symm.subset (List.mem_filter.mpr ⟨Table.find?_mem hrow, ?_⟩)
        rw [hflow, hstatus]
        simp
      obtain ⟨w, hw, stored, hstored, -, -, -, hqueue⟩ := exists_left hitems.flip hmem
      refine ⟨w, ?_, ?_⟩
      · cases items with
        | nil => cases hw
        | cons first items => exact hw
      · rw [hqueue, (materialize_ok σ.codec hstored).1, Table.find?_key hrow]
    · rw [Database.statusOf, hrow, Option.map_some, hstatus]

theorem reachable_mirrored (henabled : σ.config.engine.repositoryEnabled = true) (hstart : start σ l = .ok s₀)
    (h : (engine σ).Reachable s₀ s) (hlive : ¬ s.Failed) : ∃ db, Mirrored σ (l.recovered σ.config) s db := by
  have hinv : s.Failed ∨ ∃ db, Mirrored σ (l.recovered σ.config) s db := by
    refine h.invariant (I := fun s => s.Failed ∨ ∃ db, Mirrored σ (l.recovered σ.config) s db)
      (.inr ?_) fun s a t hi _ hs => ?_
    · obtain ⟨db, hinv, -, -⟩ := start_inv henabled hstart
      obtain ⟨hdb, hagrees⟩ := start_agrees henabled hstart
      rw [hinv.repository] at hdb
      cases hdb
      have hhead : s₀.phase = .head := by
        unfold start at hstart
        rw [if_pos henabled] at hstart
        split at hstart <;> cases hstart
        rfl
      refine ⟨_, hinv, fun _ => start_coherent hstart, hagrees, fun hp => ?_⟩
      rw [hhead] at hp
      cases hp
    · rcases hi with ⟨exit, he, -⟩ | ⟨db, hm⟩
      · exact absurd he ((step_transition hs).1 exit)
      · exact hm.step hs
  exact hinv.resolve_left hlive

/-- In every run that has not failed, the `PENDING` rows of the flow are those of the queue, its
`RUNNING` rows those of the tasks and those that were `RUNNING` before, and no row of another flow
has been touched. -/
theorem queue_mirrored (σ : Setup) (l : Launch) (henabled : σ.config.engine.repositoryEnabled = true)
    (hstart : start σ l = .ok s₀) (h : (engine σ).Reachable s₀ s) (hlive : ¬ s.Failed) :
    ∃ db, s.db = some db ∧ Agrees σ.config.id (l.recovered σ.config) s.pending s.running db := by
  obtain ⟨db, hm⟩ := reachable_mirrored henabled hstart h hlive
  exact ⟨db, hm.inv.repository, hm.agrees⟩

/-- In the first round `a` gets the packet of `q-1`. -/
theorem queue_mirrored_started :
    ∃ s₀ s, start pairSetup pairLaunch = .ok s₀ ∧ (engine pairSetup).exec s₀ (round 21) = some s ∧
      (s.db.bind fun db => db.statusOf "q-1") = some .running ∧ ∃ db, s.db = some db ∧
        Agrees "orders" (pairLaunch.recovered pairFlow) s.pending s.running db := by
  refine ⟨_, _, rfl, rfl, by decide, queue_mirrored pairSetup pairLaunch rfl rfl
    (.of_exec (round 21) rfl fun _ _ _ => trivial) ?_⟩
  rintro ⟨exit, hp, -⟩
  cases hp

end runs

end Jaiba.Engine
