import Jaiba.Engine.Occupancy

/-!
# Bounds of the queues

What a run keeps of the capacities of the edges, of `queue_capacity` and of
`maximum_in_flight`, and when a call of `route_emission` that does not route
leaves everything as it was.
-/

namespace Jaiba.Engine
open Jaiba.Lib Jaiba.Control Jaiba.Repository

/-- The packets queued on an edge. -/
def edgeSize (pending : List WorkItem) (k : ConnectionConfig) : ℕ :=
  pending.countP fun w => w.connection = some k.connectionId

/-- The packets queued for a processor. -/
def queuedFor (pending : List WorkItem) (id : String) : ℕ :=
  pending.countP fun w => w.processorId = id

structure Bounded (config : FlowConfig) (pending : List WorkItem) (active : String → ℕ) :
    Prop where
  edges : ∀ k ∈ config.connections, edgeSize pending k ≤ k.capacity
  total : State.queued pending ≤ config.engine.queueCapacity
  inFlight : ∀ p ∈ config.processors, ∀ maximum, p.scheduling.maximumInFlight = some maximum →
    active p.id + queuedFor pending p.id ≤ maximum

/-- Every edge has room for all the packets that the connections bring to it. -/
def EdgesFit (config : FlowConfig) (pending : List WorkItem) (next : List ConnectionConfig) : Prop :=
  ∀ k ∈ config.connections,
    edgeSize pending k + (next.countP fun j => j.connectionId = k.connectionId) ≤ k.capacity

instance (config : FlowConfig) (pending : List WorkItem) (next : List ConnectionConfig) :
    Decidable (EdgesFit config pending next) :=
  inferInstanceAs (Decidable (∀ k ∈ config.connections,
    edgeSize pending k + (next.countP fun j => j.connectionId = k.connectionId) ≤ k.capacity))

/-- The repository takes `n` rows. -/
def Answered (db : Database) (queueIds : List String) (n : ℕ) : Prop :=
  n ≤ queueIds.length ∧ (queueIds.take n).Nodup ∧
    ∀ q ∈ queueIds.take n, db.statusOf q = none

/-- The first `enqueue` fails. -/
def Refused (input : RouteInput) (db : Database) : Prop :=
  match input.queueIds with
  | [] => ∀ q, input.unrecorded = some q → (db.statusOf q).isSome
  | q :: _ => (db.statusOf q).isSome

/-- The condition on a call of `route_emission`: when it comes to publish, the
repository fails at its first call or not at all, and parallel connections find
room for all their packets. -/
def Sound (σ : Setup) (input : RouteInput) (s : State) (e : ProcessorEmission) : Prop :=
  let next := σ.config.outgoing e.processorId e.relationship
  next ≠ [] → fits σ.config s.pending s.active next = true → input.memory = none →
    (∃ db, s.db = some db ∧ Refused input db) ∨
    ((∀ db, s.db = some db → Answered db input.queueIds next.length) ∧
      EdgesFit σ.config s.pending next)

/-- What does not route changes nothing. -/
def AllOrNothing (σ : Setup) (input : RouteInput) (s : State) (e : ProcessorEmission) : Prop :=
  (routeEmission σ input s e).1 ≠ .ok .routed → (routeEmission σ input s e).2 = s

/-- The step calls `route_emission` with the emission `e` in the state `u`. -/
def Routes (s : State) (a : Action) (input : RouteInput) (u : State) (e : ProcessorEmission) :
    Prop :=
  (a = .head input ∧ s.phase = .head ∧ s.deferred = some e ∧
      (s.running = [] → s.control ≠ .draining ∧ s.control ≠ .stopped) ∧
      u = { s with deferred := none }) ∨
    (a = .receive input ∧ s.phase = .selecting ∧ s.deferred = none ∧
      ∃ rest, s.channel = e :: rest ∧ u = { s with channel := rest })

theorem Answered.not_refused {input : RouteInput} {db : Database} {n : ℕ}
    (h : Answered db input.queueIds n) (hn : 0 < n) : ¬ Refused input db := by
  obtain ⟨hlen, _, hfresh⟩ := h
  unfold Refused
  cases hids : input.queueIds with
  | nil =>
    rw [hids, List.length_nil] at hlen
    omega
  | cons q qs =>
    obtain ⟨m, rfl⟩ := Nat.exists_eq_succ_of_ne_zero (Nat.ne_of_gt hn)
    rw [hids, List.take_succ_cons] at hfresh
    simp [hfresh q List.mem_cons_self]

/-! ### What is published -/

section publish
variable {σ : Setup} {s t : State} {e : ProcessorEmission} {ks : List ConnectionConfig}

theorem Publishes.countP (h : Publishes σ e s ks t) (P : WorkItem → Bool)
    (Q : ConnectionConfig → Bool)
    (hPQ : ∀ k q n, P ⟨k.target, e.packet, some k.connectionId, q, n⟩ = Q k) :
    t.pending.countP P = s.pending.countP P + ks.countP Q := by
  induction h with
  | nil => rfl
  | volatile _ _ ih | durable _ _ _ ih =>
    rw [ih, List.countP_cons]
    simp only [State.pushRow, State.push, List.countP_append, List.countP_singleton, hPQ]
    omega

theorem Publishes.length (h : Publishes σ e s ks t) :
    t.pending.length = s.pending.length + ks.length := by
  have hcount := h.countP (fun _ => true) (fun _ => true) fun _ _ _ => rfl
  simpa only [List.countP_true] using hcount

/-- An id is taken as long as it is fresh. -/
theorem enqueueRow_isSome {db : Database} {now : ℤ} {k : ConnectionConfig} {queueId : String} :
    (enqueueRow σ db now e k queueId).isSome ↔ db.statusOf queueId = none := by
  constructor
  · intro h
    obtain ⟨db', hrow⟩ := Option.isSome_iff_exists.mp h
    exact (enqueueRow_spec hrow).1
  · intro h
    obtain ⟨mid, hmid⟩ := Database.insertPending_of_fresh
      (n := newRow σ.codec queueId σ.config.id k.target e.relationship e.packet) h now
    rw [enqueueRow, hmid]
    rfl

theorem answered_cons {db db' : Database} {now : ℤ} {k : ConnectionConfig} {queueId : String}
    {queueIds : List String} {n : ℕ} (hrow : enqueueRow σ db now e k queueId = some db') :
    Answered db (queueId :: queueIds) (n + 1) ↔ Answered db' queueIds n := by
  obtain ⟨hfresh, _, _, hstatus⟩ := enqueueRow_spec hrow
  simp only [Answered, List.length_cons, List.take_succ_cons, List.nodup_cons, List.mem_cons,
    forall_eq_or_imp, hfresh, hstatus, true_and, Nat.add_le_add_iff_right]
  constructor
  · rintro ⟨hlen, ⟨hnew, hn⟩, hall⟩
    refine ⟨hlen, hn, fun q hq => ?_⟩
    rw [if_neg]
    · exact hall q hq
    · rintro rfl
      exact hnew hq
  · rintro ⟨hlen, hn, hall⟩
    have hne : ∀ q ∈ queueIds.take n, q ≠ queueId ∧ db.statusOf q = none := by
      intro q hq
      have hq' := hall q hq
      split_ifs at hq' with heq
      exact ⟨heq, hq'⟩
    exact ⟨hlen, ⟨fun hq => (hne _ hq).1 rfl, hn⟩, fun q hq => (hne q hq).2⟩

theorem publishAll_row {input : RouteInput} {db db' : Database} {k : ConnectionConfig}
    {next : List ConnectionConfig} {queueId : String} {queueIds : List String}
    (hdb : s.db = some db) (hrow : enqueueRow σ db input.now e k queueId = some db') :
    publishAll σ input e s (k :: next) (queueId :: queueIds) =
      publishAll σ input e (s.pushRow e k queueId db') next queueIds := by
  rw [publishAll, hdb]
  simp only [hrow]
  rfl

theorem publishAll_taken {input : RouteInput} {db : Database} {k : ConnectionConfig}
    {next : List ConnectionConfig} {queueId : String} {queueIds : List String}
    (hdb : s.db = some db) (hrow : enqueueRow σ db input.now e k queueId = none) :
    publishAll σ input e s (k :: next) (queueId :: queueIds) =
      (.error (.database "UNIQUE constraint failed: jaiva_packet_queue.queue_id"), s) := by
  rw [publishAll, hdb]
  simp only [hrow]

theorem taken_of_none {db : Database} {now : ℤ} {k : ConnectionConfig} {queueId : String}
    (hrow : enqueueRow σ db now e k queueId = none) : (db.statusOf queueId).isSome := by
  by_contra htaken
  have hsome := (@enqueueRow_isSome σ e db now k queueId).mpr
    (Option.not_isSome_iff_eq_none.mp htaken)
  rw [hrow] at hsome
  cases hsome

/-- The loop over the connections ends without an error when every row is taken. -/
theorem publishAll_ok_iff (σ : Setup) (input : RouteInput) (e : ProcessorEmission) (s : State)
    (next : List ConnectionConfig) (queueIds : List String) :
    (publishAll σ input e s next queueIds).1 = .ok () ↔
      ∀ db, s.db = some db → Answered db queueIds next.length := by
  induction next generalizing s queueIds with
  | nil => simp [publishAll, Answered]
  | cons k next ih =>
    cases hdb : s.db with
    | none =>
      have hpush : (s.push e k none).db = none := hdb
      rw [publishAll, hdb]
      simp only [ih, hpush, reduceCtorEq, false_implies, implies_true]
    | some db =>
      simp only [Option.some.injEq, forall_eq']
      cases queueIds with
      | nil =>
        rw [publishAll, hdb]
        simp [Answered]
      | cons queueId queueIds =>
        cases hrow : enqueueRow σ db input.now e k queueId with
        | none =>
          rw [publishAll_taken hdb hrow]
          have htaken := taken_of_none hrow
          simp [Answered, Option.isSome_iff_ne_none.mp htaken]
        | some db' =>
          rw [publishAll_row hdb hrow, List.length_cons, answered_cons hrow, ih]
          simp [State.pushRow]

/-- A row was enqueued for nothing. -/
theorem leaveRow_eq_iff {input : RouteInput} {k : ConnectionConfig} {db : Database} :
    leaveRow σ input e k db = db ↔
      ∀ q, input.unrecorded = some q → (db.statusOf q).isSome := by
  unfold leaveRow
  cases hu : input.unrecorded with
  | none => simp
  | some q =>
    simp only [Option.some.injEq, forall_eq']
    cases hrow : db.insertPending input.now
        (newRow σ.codec q σ.config.id k.target e.relationship e.packet) with
    | none =>
      refine ⟨fun _ => ?_, fun _ => rfl⟩
      by_contra htaken
      obtain ⟨db', hdb'⟩ := Database.insertPending_of_fresh
        (n := newRow σ.codec q σ.config.id k.target e.relationship e.packet)
        (Option.not_isSome_iff_eq_none.mp htaken) input.now
      rw [hdb'] at hrow
      cases hrow
    | some db' =>
      have hfresh : db.statusOf q = none := (Database.insertPending_spec hrow).1
      have hnew : db'.statusOf q = some .pending :=
        (Database.insertPending_statusOf hrow q).trans (if_pos rfl)
      simp only [Option.getD_some, hfresh, Option.isSome_none, Bool.false_eq_true, iff_false]
      rintro rfl
      rw [hfresh] at hnew
      cases hnew

/-- An error leaves everything as it was exactly when it is the error of the
first `enqueue`. -/
theorem publishAll_unchanged {input : RouteInput} {next : List ConnectionConfig} {error : FlowError}
    (h : (publishAll σ input e s next input.queueIds).1 = .error error) :
    (publishAll σ input e s next input.queueIds).2 = s ↔
      ∃ db, s.db = some db ∧ Refused input db := by
  have hgrows : ∀ {u v : State} {done : List ConnectionConfig} {k : ConnectionConfig}
      {q : Option String}, u.pending = (s.push e k q).pending → Publishes σ e u done v →
      ∀ w, Abandons σ e v w → w ≠ s := by
    rintro u v done k q hu hpub w hleft rfl
    have hlen := hpub.length
    have hsame : w.pending = v.pending := by rw [hleft.frame]
    rw [hu, ← hsame, State.push, List.length_append, List.length_singleton] at hlen
    omega
  cases next with
  | nil => cases h
  | cons k next =>
    cases hdb : s.db with
    | none =>
      rw [publishAll, hdb]
      obtain ⟨done, u, _, hpub, hleft, _⟩ :=
        publishAll_spec σ input e (s.push e k none) next input.queueIds
      simp only [reduceCtorEq, false_and, exists_false, iff_false]
      exact hgrows rfl hpub _ hleft
    | some db =>
      simp only [Option.some.injEq, exists_eq_left']
      unfold Refused
      cases hids : input.queueIds with
      | nil =>
        rw [publishAll, hdb]
        simp only
        rw [← leaveRow_eq_iff (σ := σ) (e := e) (k := k)]
        constructor
        · intro heq
          have hsame := congrArg State.db heq
          rw [hdb] at hsame
          exact Option.some.inj hsame
        · intro heq
          rw [heq, ← hdb]
      | cons queueId queueIds =>
        cases hrow : enqueueRow σ db input.now e k queueId with
        | none =>
          rw [publishAll_taken hdb hrow]
          exact ⟨fun _ => taken_of_none hrow, fun _ => rfl⟩
        | some db' =>
          rw [publishAll_row hdb hrow]
          simp only [(enqueueRow_spec hrow).1, Option.isSome_none, Bool.false_eq_true, iff_false]
          obtain ⟨done, u, _, hpub, hleft, _⟩ :=
            publishAll_spec σ input e (s.pushRow e k queueId db') next queueIds
          exact hgrows (u := s.pushRow e k queueId db') (k := k) (q := some queueId) rfl hpub _ hleft

end publish

/-! ### Bounds -/

section bounded
variable {config : FlowConfig} {pending pending' : List WorkItem} {active active' : String → ℕ}

theorem Bounded.mono (h : Bounded config pending active)
    (hsub : ∀ P : WorkItem → Bool, pending'.countP P ≤ pending.countP P)
    (hactive : ∀ id, active' id + queuedFor pending' id ≤ active id + queuedFor pending id) :
    Bounded config pending' active' where
  edges := fun k hk => Nat.le_trans (hsub _) (h.edges k hk)
  total := Nat.le_trans (hsub _) h.total
  inFlight := fun p hp maximum hmax =>
    Nat.le_trans (hactive p.id) (h.inFlight p hp maximum hmax)

/-- A start moves one packet from the queue to the running tasks. -/
theorem Bounded.start {w : WorkItem} {dropped : List WorkItem}
    (h : Bounded config pending active) (hperm : (w :: pending' ++ dropped).Perm pending) :
    Bounded config pending'
      (Function.update active w.processorId (active w.processorId + 1)) := by
  have hcount : ∀ P : WorkItem → Bool, pending.countP P =
      (pending'.countP P + if P w then 1 else 0) + dropped.countP P := by
    intro P
    rw [← hperm.countP_eq P, List.countP_append, List.countP_cons]
  refine h.mono (fun P => ?_) fun id => ?_
  · have hP := hcount P
    omega
  · have hid := hcount fun w => w.processorId = id
    by_cases hw : id = w.processorId
    · subst hw
      simp only [decide_true, if_true] at hid
      simp only [Function.update_self, queuedFor]
      omega
    · simp only [Function.update_of_ne hw, queuedFor]
      omega

variable {σ : Setup} {s t : State} {e : ProcessorEmission} {done next : List ConnectionConfig}

/-- The checks of `route_emission` bound what is queued for one processor. -/
theorem fits_inFlight (hn : (σ.config.processors.map ProcessorConfig.id).Nodup)
    (hfits : fits σ.config s.pending s.active next = true) {p : ProcessorConfig} {maximum : ℕ}
    (hp : p ∈ σ.config.processors) (hmax : p.scheduling.maximumInFlight = some maximum)
    (hnext : 0 < next.countP fun j => j.target = p.id) :
    s.active p.id + queuedFor s.pending p.id + (next.countP fun j => j.target = p.id) ≤ maximum := by
  obtain ⟨k, hk, htarget⟩ := List.countP_pos_iff.mp hnext
  have htarget : k.target = p.id := by simpa using htarget
  simp only [fits, Bool.and_eq_true, List.all_eq_true] at hfits
  have hedge := hfits.2 k hk
  simp only [edgeFits, Bool.and_eq_true, htarget, FlowConfig.definition?_of_mem hn hp,
    Option.bind_some, hmax, decide_eq_true_eq] at hedge
  have hcheck := hedge.2
  rw [queuedFor]
  omega

/-- What a prefix of the connections brings stays within `queue_capacity` and
`maximum_in_flight`. -/
theorem Bounded.publish (hn : (σ.config.processors.map ProcessorConfig.id).Nodup)
    (h : Bounded σ.config s.pending s.active)
    (hfits : fits σ.config s.pending s.active next = true) (hdone : done <+: next)
    (hedges : EdgesFit σ.config s.pending done) (hpub : Publishes σ e s done t) :
    Bounded σ.config t.pending s.active where
  edges := fun k hk => by
    have hcount := hpub.countP (fun w => w.connection = some k.connectionId)
      (fun j => j.connectionId = k.connectionId) fun j _ _ => by simp
    rw [edgeSize, hcount]
    exact hedges k hk
  total := by
    have hcount := hpub.countP (fun w => !w.isSourceSeed) (fun _ => true) fun _ _ _ => by
      simp [WorkItem.isSourceSeed]
    rw [State.queued, hcount, List.countP_true]
    have hcap := hfits
    simp only [fits, Bool.and_eq_true, decide_eq_true_eq] at hcap
    have hlen := hdone.length_le
    have htotal := hcap.1
    rw [State.queued] at htotal
    omega
  inFlight := fun p hp maximum hmax => by
    have hcount := hpub.countP (fun w => w.processorId = p.id) (fun j => j.target = p.id)
      fun _ _ _ => rfl
    have hle := hdone.sublist.countP_le (p := fun j => j.target = p.id)
    have hold := h.inFlight p hp maximum hmax
    rw [queuedFor] at hold ⊢
    rw [hcount]
    by_cases hnext : 0 < next.countP fun j => j.target = p.id
    · have hcheck := fits_inFlight hn hfits hp hmax hnext
      rw [queuedFor] at hcheck
      omega
    · omega

/-- The edges of a published relationship are within their capacities only if
every edge had room for all its packets. -/
theorem Bounded.edgesFit (h : Bounded σ.config t.pending s.active)
    (hpub : Publishes σ e s next t) : EdgesFit σ.config s.pending next := by
  intro k hk
  have hcount := hpub.countP (fun w => w.connection = some k.connectionId)
    (fun j => j.connectionId = k.connectionId) fun j _ _ => by simp
  have hedge := h.edges k hk
  rw [edgeSize, hcount] at hedge
  exact hedge

/-- A call that does not come to publish changes nothing but the marks. -/
theorem route_unpublished (input : RouteInput)
    (h : σ.config.outgoing e.processorId e.relationship = [] ∨
      fits σ.config s.pending s.active (σ.config.outgoing e.processorId e.relationship) = false ∨
      input.memory ≠ none) :
    routeEmission σ input s e = (.ok .routed, s.noteRouted e) ∨
      (routeEmission σ input s e).2 = s := by
  rw [routeEmission]
  split_ifs with hempty hfits
  · exact .inl rfl
  · exact .inr rfl
  · rw [List.isEmpty_iff] at hempty
    cases hm : input.memory with
    | none =>
      rcases h with h | h | h
      · exact absurd h hempty
      · rw [h] at hfits
        exact absurd rfl hfits
      · exact absurd hm h
    | some error => cases error <;> exact .inr rfl

/-- A call of `route_emission` keeps the bounds and is all or nothing exactly
when it meets the condition. -/
theorem route_sound (hn : (σ.config.processors.map ProcessorConfig.id).Nodup)
    (h : Bounded σ.config s.pending s.active) (input : RouteInput) (e : ProcessorEmission) :
    (Bounded σ.config (routeEmission σ input s e).2.pending s.active ∧
      AllOrNothing σ input s e) ↔ Sound σ input s e := by
  by_cases hquiet : σ.config.outgoing e.processorId e.relationship = [] ∨
      fits σ.config s.pending s.active (σ.config.outgoing e.processorId e.relationship) = false ∨
      input.memory ≠ none
  · have hsound : Sound σ input s e := by
      intro hne hfits hmem
      rcases hquiet with hnil | hunfit | hfull
      · exact absurd hnil hne
      · rw [hfits] at hunfit
        cases hunfit
      · exact absurd hmem hfull
    refine ⟨fun _ => hsound, fun _ => ?_⟩
    rcases route_unpublished input hquiet with hroute | hroute
    · rw [AllOrNothing, hroute]
      exact ⟨h, fun hne => absurd rfl hne⟩
    · rw [AllOrNothing, hroute]
      exact ⟨h, fun _ => rfl⟩
  · simp only [not_or, Bool.not_eq_false, not_not] at hquiet
    obtain ⟨hne, hfits, hmem⟩ := hquiet
    have hsound : Sound σ input s e ↔ (∃ db, s.db = some db ∧ Refused input db) ∨
        ((∀ db, s.db = some db → Answered db input.queueIds
          (σ.config.outgoing e.processorId e.relationship).length) ∧
          EdgesFit σ.config s.pending (σ.config.outgoing e.processorId e.relationship)) :=
      ⟨fun hs => hs hne hfits hmem, fun hs _ _ _ => hs⟩
    obtain ⟨done, u, hdone, hpub, hleft, hok⟩ := publishAll_spec σ input e s
      (σ.config.outgoing e.processorId e.relationship) input.queueIds
    have hiff := publishAll_ok_iff σ input e s
      (σ.config.outgoing e.processorId e.relationship) input.queueIds
    rw [hsound, AllOrNothing]
    cases hres : publishAll σ input e s (σ.config.outgoing e.processorId e.relationship)
        input.queueIds with
    | mk result t =>
      rw [hres] at hiff hleft hok
      cases result with
      | ok =>
        obtain ⟨hall, rfl⟩ := hok rfl
        rw [hall] at hpub
        have hroute : routeEmission σ input s e = (.ok .routed, u.noteRouted e) := by
          simp [routeEmission, hne, hfits, hmem, hres]
        have hanswered := hiff.mp rfl
        rw [hroute]
        constructor
        · exact fun ⟨hb, _⟩ => .inr ⟨hanswered, Bounded.edgesFit (t := u) hb hpub⟩
        · rintro (⟨db, hdb, hrefused⟩ | ⟨_, hedges⟩)
          · have hpos := List.length_pos_iff.mpr hne
            exact absurd hrefused ((hanswered db hdb).not_refused hpos)
          · have hb : Bounded σ.config u.pending s.active :=
              h.publish hn hfits List.prefix_rfl hedges hpub
            exact ⟨hb, fun hno => absurd rfl hno⟩
      | error error =>
        have hroute : routeEmission σ input s e = (.error error, t) := by
          simp [routeEmission, hne, hfits, hmem, hres]
        have hchanged := publishAll_unchanged (by rw [hres])
        rw [hres] at hchanged
        rw [hroute]
        constructor
        · exact fun ⟨_, hall⟩ => .inl (hchanged.mp (hall (by simp)))
        · rintro (hrefused | ⟨hanswered, _⟩)
          · have hsame : t = s := hchanged.mpr hrefused
            rw [hsame]
            exact ⟨h, fun _ => rfl⟩
          · cases hiff.mpr hanswered

end bounded

/-! ### Steps -/

variable {σ : Setup} {s t : State}

theorem Schedules.bounded {input : ScheduleInput} {backlog : ℕ}
    (hs : Schedules σ input backlog s t) (h : Bounded σ.config s.pending s.active) :
    Bounded σ.config t.pending t.active := by
  induction hs with
  | @idle s pending dropped hperm _ _ =>
    have hle : ∀ P : WorkItem → Bool, pending.countP P ≤ s.pending.countP P := by
      intro P
      rw [← hperm.countP_eq P, List.countP_append]
      exact Nat.le_add_right _ _
    exact h.mono hle fun id => Nat.add_le_add_left (hle _) _
  | start hperm _ _ _ ih => exact ih (h.start hperm)
  | stop => exact h

theorem holdUnrouted_frame (e : ProcessorEmission) (next : Phase)
    (r : Except FlowError RouteOutcome × State) :
    (holdUnrouted e next r).pending = r.2.pending ∧ (holdUnrouted e next r).active = r.2.active ∧
      ((holdUnrouted e next r).phase = next ∨ ∃ error, (holdUnrouted e next r).phase =
        .ended (.failed error)) := by
  obtain ⟨result, u⟩ := r
  cases result with
  | error error => exact ⟨rfl, rfl, .inr ⟨error, rfl⟩⟩
  | ok outcome => cases outcome <;> exact ⟨rfl, rfl, .inl rfl⟩

theorem route_active (input : RouteInput) (s : State) (e : ProcessorEmission) :
    (routeEmission σ input s e).2.active = s.active := by
  rcases routeEmission_cases σ input s e with
    ⟨u, hu, hp⟩ | ⟨hu, _⟩ | ⟨error, hu, _⟩ | ⟨error, u, v, done, hu, _, hp, hleft⟩ <;> rw [hu]
  · have hactive : u.active = s.active := by rw [hp.frame]
    exact hactive
  · have hactive : u.active = s.active := by rw [hp.frame]
    rw [hleft.frame]
    exact hactive

theorem routes_of_head {input : RouteInput} {e : ProcessorEmission} (hp : s.phase = .head)
    (hd : s.deferred = some e) (hs : step σ s (.head input) = some t)
    (hne : t.phase ≠ .ended .finished) :
    Routes s (.head input) input { s with deferred := none } e := by
  refine .inl ⟨rfl, hp, hd, fun hr => ?_, rfl⟩
  rw [step_head _ hp, State.loopHead] at hs
  constructor
  all_goals
    intro hc
    simp only [hr, hc, List.isEmpty_nil, decide_true, Bool.true_or, Bool.or_true, Bool.and_self,
      if_true, Option.some.injEq] at hs
    exact hne (hs ▸ rfl)

theorem Routes.unique {a : Action} {input input' : RouteInput} {u u' : State}
    {e e' : ProcessorEmission} (h : Routes s a input u e) (h' : Routes s a input' u' e') :
    input' = input ∧ u' = u ∧ e' = e := by
  rcases h with ⟨rfl, hp, hd, _, rfl⟩ | ⟨rfl, hp, hd, rest, hc, rfl⟩
  · rcases h' with ⟨heq, _, hd', _, rfl⟩ | ⟨heq, _⟩
    · cases heq
      rw [hd] at hd'
      exact ⟨rfl, rfl, (Option.some.inj hd').symm⟩
    · cases heq
  · rcases h' with ⟨heq, _⟩ | ⟨heq, _, _, rest', hc', rfl⟩
    · cases heq
    · cases heq
      rw [hc] at hc'
      cases hc'
      exact ⟨rfl, rfl, rfl⟩

/-- What a step that calls `route_emission` does. -/
theorem Routes.step {a : Action} {input : RouteInput} {u : State} {e : ProcessorEmission}
    (h : Routes s a input u e) (hs : step σ s a = some t) :
    u.pending = s.pending ∧ u.active = s.active ∧
      t.pending = (routeEmission σ input u e).2.pending ∧ t.active = s.active := by
  have hroute : ∀ next, t = holdUnrouted e next (routeEmission σ input u e) →
      u.active = s.active → t.pending = (routeEmission σ input u e).2.pending ∧
        t.active = s.active := by
    rintro next rfl hu
    obtain ⟨hpend, hact, _⟩ := holdUnrouted_frame e next (routeEmission σ input u e)
    exact ⟨hpend, by rw [hact, route_active, hu]⟩
  rcases h with ⟨rfl, hp, hd, hgo, rfl⟩ | ⟨rfl, hp, hd, rest, hc, rfl⟩
  · refine ⟨rfl, rfl, hroute .scheduling ?_ rfl⟩
    rw [step_head _ hp, State.loopHead] at hs
    split_ifs at hs with hleave hpause
    · simp only [Bool.and_eq_true, List.isEmpty_iff, Bool.or_eq_true, decide_eq_true_eq] at hleave
      obtain ⟨hdrain, hstop⟩ := hgo hleave.1
      exact absurd hleave.2 (by simp [hdrain, hstop])
    · simp only [hd, Option.some.injEq] at hs
      exact hs.symm
  · refine ⟨rfl, rfl, hroute .head ?_ rfl⟩
    rw [step_receive _ hp hd hc] at hs
    exact (Option.some.inj hs).symm

/-- The steps that do not call `route_emission` keep the bounds. -/
theorem step_unrouted {a : Action} (h : Bounded σ.config s.pending s.active)
    (hs : step σ s a = some t) (hno : ∀ input u e, ¬ Routes s a input u e) :
    Bounded σ.config t.pending t.active := by
  obtain ⟨_, htr⟩ := step_transition hs
  cases htr with
  | control | abort | acquire | leave | resume | refill | finish | giveUp | select | stall
    | maintain | deadlock => exact h
  | emit _ _ _ hemit =>
    unfold State.emit at hemit
    simp only at hemit
    split_ifs at hemit <;> cases hemit <;> exact h
  | @route input e hp hd =>
    obtain ⟨_, _, hphase⟩ := holdUnrouted_frame e .scheduling
      (routeEmission σ input { s with deferred := none } e)
    refine absurd (routes_of_head hp hd hs fun hend => ?_) (hno _ _ _)
    rcases hphase with hphase | ⟨error, hphase⟩ <;> rw [hend] at hphase <;> cases hphase
  | @schedule input =>
    rcases scheduleAvailable_cases σ input s with ⟨_, heq⟩ | ⟨_, hsch⟩
    · rw [heq]
      exact h
    · exact hsch.bounded h
  | @join i x now _ hx =>
    unfold State.complete
    split
    · exact h
    · refine h.mono (fun _ => Nat.le_refl _) fun id => Nat.add_le_add_right ?_ _
      by_cases hid : id = x.processorId
      · subst hid
        simp
      · simp [Function.update_of_ne hid]
  | @receive input e rest hp hd hc => exact absurd (.inr ⟨rfl, hp, hd, rest, hc, rfl⟩) (hno _ _ _)

/-- A step keeps the bounds, and its call of `route_emission` is all or nothing,
exactly when the call meets the condition. -/
theorem step_sound {a : Action} (hn : (σ.config.processors.map ProcessorConfig.id).Nodup)
    (h : Bounded σ.config s.pending s.active) (hs : step σ s a = some t) :
    (Bounded σ.config t.pending t.active ∧
        ∀ input u e, Routes s a input u e → AllOrNothing σ input u e) ↔
      ∀ input u e, Routes s a input u e → Sound σ input u e := by
  by_cases hr : ∃ input u e, Routes s a input u e
  · obtain ⟨input, u, e, hr⟩ := hr
    obtain ⟨hpend, hact, hpend', hact'⟩ := hr.step hs
    have hu : Bounded σ.config u.pending u.active := by rw [hpend, hact]; exact h
    have hiff := route_sound hn hu input e
    rw [hpend', hact', ← hact]
    constructor
    · rintro ⟨hb, hall⟩ input' u' e' hr'
      obtain ⟨rfl, rfl, rfl⟩ := hr.unique hr'
      exact hiff.mp ⟨hb, hall _ _ _ hr⟩
    · intro hall
      obtain ⟨hb, hone⟩ := hiff.mpr (hall _ _ _ hr)
      refine ⟨hb, fun input' u' e' hr' => ?_⟩
      obtain ⟨rfl, rfl, rfl⟩ := hr.unique hr'
      exact hone
  · have hno : ∀ input u e, ¬ Routes s a input u e := fun input u e hr' => hr ⟨input, u, e, hr'⟩
    exact ⟨fun _ input u e hr' => absurd hr' (hno input u e), fun _ =>
      ⟨step_unrouted h hs hno, fun input u e hr' => absurd hr' (hno input u e)⟩⟩

/-! ### Runs -/

theorem validateProcessors_maximum {seen : List String} {ps : List ProcessorConfig}
    (h : validateProcessors seen ps = .ok ()) {p : ProcessorConfig} (hp : p ∈ ps) :
    p.scheduling.maximumInFlight ≠ some 0 := by
  induction ps generalizing seen with
  | nil => cases hp
  | cons q ps ih =>
    unfold validateProcessors at h
    split at h
    · cases h
    next hq =>
      rcases List.mem_cons.mp hp with rfl | hp
      · unfold validateProcessor at hq
        split_ifs at hq with _ _ hmax
        exact hmax
      · exact ih h hp

/-- The seeds take no queue capacity, and there is one for each source. -/
theorem seeds_bounded (haccepted : Accepted σ.config) (packetId : ℕ → String) :
    Bounded σ.config (sourceSeeds σ.config packetId) fun _ => 0 where
  edges := fun k _ => by
    have hnone : edgeSize (sourceSeeds σ.config packetId) k = 0 := by
      rw [edgeSize, List.countP_eq_zero]
      intro w hw
      obtain ⟨i, hi, rfl⟩ := List.mem_mapIdx.mp hw
      simp
    omega
  total := by
    have hnone : State.queued (sourceSeeds σ.config packetId) = 0 := by
      rw [State.queued, List.countP_eq_zero]
      intro w hw
      obtain ⟨i, hi, rfl⟩ := List.mem_mapIdx.mp hw
      simp [WorkItem.isSourceSeed]
    omega
  inFlight := fun p hp maximum hmax => by
    have hpos : maximum ≠ 0 := fun hzero =>
      validateProcessors_maximum (validate_ok haccepted.validate).2.2.1 hp (hzero ▸ hmax)
    have hids : (sourceSeeds σ.config packetId).map WorkItem.processorId =
        (σ.config.processors.filter fun p =>
          !σ.config.connections.any fun k => k.target = p.id).map ProcessorConfig.id :=
      List.ext_getElem (by simp [sourceSeeds]) fun i _ _ => by simp [sourceSeeds]
    have hone : queuedFor (sourceSeeds σ.config packetId) p.id ≤ 1 := by
      have hcount : queuedFor (sourceSeeds σ.config packetId) p.id =
          ((sourceSeeds σ.config packetId).map WorkItem.processorId).count p.id := by
        rw [queuedFor, List.count, List.countP_map]
        rfl
      rw [hcount, hids]
      refine List.nodup_iff_count_le_one.mp (haccepted.ids_nodup.sublist ?_) p.id
      exact List.filter_sublist.map _
    omega

/-- `a` emits one packet for `b` over two connections of the same id. -/
def parallelSetup : Setup where
  config := exampleFlow 2 2 [exampleProcessor "a", exampleProcessor "b"]
    [{ exampleConnection "a" "b" with capacity := 1 },
      { exampleConnection "a" "b" with capacity := 1 }]
  codec := exampleCodec
  execute := fun _ id packet => ⟨if id = "a" then [("success", packet)] else [], .ok ()⟩
  processorMode := fun _ => .asyncIo
  pool := fun _ => 1

/-- The first row is taken, the second is not. -/
def halfTaken : RouteInput := ⟨none, ["q-1"], none, 22, .database "disk I/O error"⟩

end Jaiba.Engine
