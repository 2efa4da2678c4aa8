import Jaiba.Engine.State
import Jaiba.Repository.Identity

/-!
# Routing of emissions (`engine/executor/routing.rs`)

`route_emission`: one packet for each connection of the relationship, all of
them or none as far as capacities go.
-/

namespace Jaiba.Engine
open Jaiba.Control Jaiba.Repository

inductive RouteOutcome where
  | routed | queueFull
  | memoryFull (error : FlowError)
  deriving Repr, DecidableEq

/-- What the environment contributes to one call: the error of a reservation
that is not granted, the fresh queue ids, and the error of the repository call
for which no id is left. When that call is a `record_event`, `unrecorded` is the
id of the row that has been enqueued before it. -/
structure RouteInput where
  memory : Option FlowError
  queueIds : List String
  unrecorded : Option String
  now : ℤ
  repositoryError : FlowError

/-- The capacity of one connection and the `maximum_in_flight` of its target. -/
def edgeFits (config : FlowConfig) (pending : List WorkItem) (active : String → ℕ)
    (next : List ConnectionConfig) (k : ConnectionConfig) : Bool :=
  (pending.countP fun w => w.connection = some k.connectionId) < k.capacity &&
    match (config.definition? k.target).bind fun p => p.scheduling.maximumInFlight with
    | none => true
    | some maximum =>
      (pending.countP fun w => w.processorId = k.target) + active k.target +
        (next.countP fun j => j.target = k.target) ≤ maximum

/-- The capacity checks of `route_emission`. -/
def fits (config : FlowConfig) (pending : List WorkItem) (active : String → ℕ)
    (next : List ConnectionConfig) : Bool :=
  State.queued pending + next.length ≤ config.engine.queueCapacity &&
    next.all (edgeFits config pending active next)

/-- `enqueue` and `record_event` for one connection. -/
def enqueueRow (σ : Setup) (db : Database) (now : ℤ) (e : ProcessorEmission)
    (k : ConnectionConfig) (queueId : String) : Option Database :=
  (db.insertPending now
    (newRow σ.codec queueId σ.config.id k.target e.relationship e.packet)).map fun db =>
    db.recordEvent now queueId .routed
      (.object [("destination_processor", .string k.target),
        ("packet_bytes", .number (.posInt (e.packet.estimatedSize σ.codec))),
        ("relationship", .string e.relationship),
        ("source_processor", .string k.source)])

/-- The packet queued for one connection. -/
def State.push (s : State) (e : ProcessorEmission) (k : ConnectionConfig)
    (queueId : Option String) : State :=
  { s with
    pending := s.pending ++ [⟨k.target, e.packet, some k.connectionId, queueId, s.next⟩]
    next := s.next + 1 }

/-- The rows after the call that fails. -/
def leaveRow (σ : Setup) (input : RouteInput) (e : ProcessorEmission) (k : ConnectionConfig)
    (db : Database) : Database :=
  match input.unrecorded with
  | none => db
  | some queueId =>
    (db.insertPending input.now
      (newRow σ.codec queueId σ.config.id k.target e.relationship e.packet)).getD db

/-- The loop over the connections; an error leaves what is already queued. -/
def publishAll (σ : Setup) (input : RouteInput) (e : ProcessorEmission) (s : State) :
    List ConnectionConfig → List String → Except FlowError Unit × State
  | [], _ => (.ok (), s)
  | k :: next, queueIds =>
    match s.db with
    | none => publishAll σ input e (s.push e k none) next queueIds
    | some db =>
      match queueIds with
      | [] => (.error input.repositoryError, { s with db := some (leaveRow σ input e k db) })
      | queueId :: queueIds =>
        match enqueueRow σ db input.now e k queueId with
        | none =>
          (.error (.database "UNIQUE constraint failed: jaiva_packet_queue.queue_id"), s)
        | some db =>
          publishAll σ input e
            { s.push e k (some queueId) with
              db := some db
              trace := { s.trace with
                published := s.trace.published ++ [(e.serial, k, queueId)] } }
            next queueIds

/-- The mark of a routed emission. -/
def State.noteRouted (s : State) (e : ProcessorEmission) : State :=
  { s with trace := { s.trace with routed := s.trace.routed ++ [e] } }

/-- `route_emission`. -/
def routeEmission (σ : Setup) (input : RouteInput) (s : State) (e : ProcessorEmission) :
    Except FlowError RouteOutcome × State :=
  let next := σ.config.outgoing e.processorId e.relationship
  if next.isEmpty then (.ok .routed, s.noteRouted e)
  else if !fits σ.config s.pending s.active next then (.ok .queueFull, s)
  else
    match input.memory with
    | some (.memoryCapacity bytes) => (.ok (.memoryFull (.memoryCapacity bytes)), s)
    | some error => (.error error, s)
    | none =>
      match publishAll σ input e s next input.queueIds with
      | (.error error, t) => (.error error, t)
      | (.ok _, t) => (.ok .routed, t.noteRouted e)

/-- `hold_unrouted` after `route_emission`, whose error ends the run. -/
def holdUnrouted (e : ProcessorEmission) (next : Phase) :
    Except FlowError RouteOutcome × State → State
  | (.error error, s) => { s with phase := .ended (.failed error) }
  | (.ok .routed, s) => { s with deferred := none, memoryStall := none, phase := next }
  | (.ok .queueFull, s) => { s with deferred := some e, memoryStall := none, phase := next }
  | (.ok (.memoryFull error), s) =>
    { s with
      deferred := some e
      memoryStall := some (s.memoryStall.getD error)
      phase := next }

/-! ### What routing does -/

/-- The row is fresh, it carries the packet, and no other row is touched. -/
theorem enqueueRow_spec {σ : Setup} {db db' : Database} {now : ℤ} {e : ProcessorEmission}
    {k : ConnectionConfig} {queueId : String}
    (h : enqueueRow σ db now e k queueId = some db') :
    db.statusOf queueId = none ∧ db.Keeps db' ∧
      db'.identityOf queueId = some ((newRow σ.codec queueId σ.config.id k.target e.relationship
        e.packet).toRow 0).identity ∧
      ∀ q, db'.statusOf q = if q = queueId then some .pending else db.statusOf q := by
  obtain ⟨mid, hmid, rfl⟩ := Option.map_eq_some_iff.mp h
  refine ⟨(Database.insertPending_spec hmid).1, ?_, ?_, fun q => ?_⟩
  · intro q row hrow
    rw [Database.recordEvent_identityOf]
    exact Database.insertPending_keeps hmid q row hrow
  · rw [Database.recordEvent_identityOf]
    exact Database.insertPending_identityOf hmid
  · rw [Database.recordEvent_statusOf]
    exact Database.insertPending_statusOf hmid q

/-- The state after the row of one connection is enqueued and its packet queued. -/
def State.pushRow (s : State) (e : ProcessorEmission) (k : ConnectionConfig) (queueId : String)
    (db : Database) : State :=
  { s.push e k (some queueId) with
    db := some db
    trace := { s.trace with published := s.trace.published ++ [(e.serial, k, queueId)] } }

/-- `Publishes σ e s ks t`: from `s` to `t` the packet of `e` was queued for the
connections `ks`. -/
inductive Publishes (σ : Setup) (e : ProcessorEmission) :
    State → List ConnectionConfig → State → Prop where
  | nil (s : State) : Publishes σ e s [] s
  | volatile {s t : State} {k : ConnectionConfig} {ks : List ConnectionConfig} :
      s.db = none → Publishes σ e (s.push e k none) ks t → Publishes σ e s (k :: ks) t
  | durable {s t : State} {k : ConnectionConfig} {ks : List ConnectionConfig} {now : ℤ}
      {queueId : String} {db db' : Database} : s.db = some db →
      enqueueRow σ db now e k queueId = some db' →
      Publishes σ e (s.pushRow e k queueId db') ks t → Publishes σ e s (k :: ks) t

/-- What an error of the repository leaves: at most one row more. -/
inductive Abandons (σ : Setup) (e : ProcessorEmission) (s : State) : State → Prop where
  | clean : Abandons σ e s s
  | row {now : ℤ} {queueId : String} {k : ConnectionConfig} {db db' : Database} :
      s.db = some db → db.insertPending now
        (newRow σ.codec queueId σ.config.id k.target e.relationship e.packet) = some db' →
      Abandons σ e s { s with db := some db' }

theorem abandons_leaveRow {σ : Setup} {s : State} {db : Database} (input : RouteInput)
    (e : ProcessorEmission) (k : ConnectionConfig) (hdb : s.db = some db) :
    Abandons σ e s { s with db := some (leaveRow σ input e k db) } := by
  have hsame : Abandons σ e s { s with db := some db } := by
    rw [← hdb]
    exact .clean
  unfold leaveRow
  split
  · exact hsame
  next queueId _ =>
    cases hrow : db.insertPending input.now
        (newRow σ.codec queueId σ.config.id k.target e.relationship e.packet) with
    | none => exact hsame
    | some db' => exact .row hdb hrow

theorem Abandons.frame {σ : Setup} {e : ProcessorEmission} {s t : State}
    (h : Abandons σ e s t) : t = { s with db := t.db } := by
  cases h <;> rfl

/-- The connections that were published before an error: not all of them. -/
structure Halted (done next : List ConnectionConfig) (result : Except FlowError Unit) : Prop where
  before : done <+: next
  short : result ≠ .ok () → done.length < next.length

theorem Halted.cons {done next : List ConnectionConfig} {result : Except FlowError Unit}
    (h : Halted done next result) (k : ConnectionConfig) :
    Halted (k :: done) (k :: next) result :=
  ⟨(List.prefix_cons_inj k).mpr h.before, fun hne => Nat.succ_lt_succ (h.short hne)⟩

theorem Halted.nil (k : ConnectionConfig) (next : List ConnectionConfig)
    (result : Except FlowError Unit) : Halted [] (k :: next) result :=
  ⟨List.nil_prefix, fun _ => Nat.succ_pos _⟩

theorem publishAll_spec (σ : Setup) (input : RouteInput) (e : ProcessorEmission) (s : State)
    (next : List ConnectionConfig) (queueIds : List String) :
    ∃ done u, Halted done next (publishAll σ input e s next queueIds).1 ∧ Publishes σ e s done u ∧
      Abandons σ e u (publishAll σ input e s next queueIds).2 ∧
      ((publishAll σ input e s next queueIds).1 = .ok () →
        done = next ∧ u = (publishAll σ input e s next queueIds).2) := by
  induction next generalizing s queueIds with
  | nil => exact ⟨[], s, ⟨List.prefix_rfl, fun hne => absurd rfl hne⟩, .nil s, .clean, fun _ => ⟨rfl, rfl⟩⟩
  | cons k next ih =>
    unfold publishAll
    split
    next hdb =>
      obtain ⟨done, u, hp, hpub, hleft, hok⟩ := ih (s.push e k none) queueIds
      exact ⟨k :: done, u, hp.cons k, .volatile hdb hpub, hleft,
        fun h => ⟨by rw [(hok h).1], (hok h).2⟩⟩
    next db hdb =>
      split
      · exact ⟨[], s, .nil k next _, .nil s, abandons_leaveRow input e k hdb, fun h => by cases h⟩
      next queueId queueIds =>
        split
        · exact ⟨[], s, .nil k next _, .nil s, .clean, fun h => by cases h⟩
        next db' hdb' =>
          obtain ⟨done, u, hp, hpub, hleft, hok⟩ := ih (s.pushRow e k queueId db') queueIds
          exact ⟨k :: done, u, hp.cons k, .durable hdb hdb' hpub, hleft,
            fun h => ⟨by rw [(hok h).1], (hok h).2⟩⟩

/-- The four ways `route_emission` ends. -/
theorem routeEmission_cases (σ : Setup) (input : RouteInput) (s : State) (e : ProcessorEmission) :
    (∃ t, routeEmission σ input s e = (.ok .routed, t.noteRouted e) ∧
      Publishes σ e s (σ.config.outgoing e.processorId e.relationship) t) ∨
    (routeEmission σ input s e = (.ok .queueFull, s) ∧
      fits σ.config s.pending s.active (σ.config.outgoing e.processorId e.relationship) = false) ∨
    (∃ error, routeEmission σ input s e = (.ok (.memoryFull error), s) ∧ input.memory.isSome) ∨
    (∃ error u t done, routeEmission σ input s e = (.error error, t) ∧
      Halted done (σ.config.outgoing e.processorId e.relationship) (.error error) ∧
      Publishes σ e s done u ∧ Abandons σ e u t) := by
  unfold routeEmission
  simp only
  split_ifs with hempty hfits
  · rw [List.isEmpty_iff] at hempty
    exact .inl ⟨s, rfl, hempty ▸ .nil s⟩
  · exact .inr (.inl ⟨rfl, by simpa using hfits⟩)
  · split
    next hm => exact .inr (.inr (.inl ⟨_, rfl, by simp [hm]⟩))
    next hm =>
      rw [List.isEmpty_iff, ← Ne, ← List.length_pos_iff] at hempty
      exact .inr (.inr (.inr ⟨_, s, s, [], rfl, ⟨List.nil_prefix, fun _ => hempty⟩, .nil s, .clean⟩))
    next hm =>
      obtain ⟨done, u, hp, hpub, hleft, hok⟩ := publishAll_spec σ input e s
        (σ.config.outgoing e.processorId e.relationship) input.queueIds
      split <;> rename_i ht <;> rw [ht] at hp hleft hok
      · exact .inr (.inr (.inr ⟨_, u, _, done, rfl, hp, hpub, hleft⟩))
      · obtain ⟨hdone, hu⟩ := hok rfl
        rw [hdone, hu] at hpub
        exact .inl ⟨_, rfl, hpub⟩

/-- A relationship that fits is routed when its memory is granted and the
repository takes its rows. -/
theorem routeEmission_routed {σ : Setup} {input : RouteInput} {s : State} {e : ProcessorEmission}
    (hfits : fits σ.config s.pending s.active
      (σ.config.outgoing e.processorId e.relationship) = true)
    (hmemory : input.memory = none)
    (hrows : (publishAll σ input e s (σ.config.outgoing e.processorId e.relationship)
      input.queueIds).1 = .ok ()) :
    ∃ t, routeEmission σ input s e = (.ok .routed, t.noteRouted e) ∧
      Publishes σ e s (σ.config.outgoing e.processorId e.relationship) t := by
  obtain ⟨done, u, _, hpub, _, hok⟩ := publishAll_spec σ input e s
    (σ.config.outgoing e.processorId e.relationship) input.queueIds
  unfold routeEmission
  simp only [hfits, hmemory, Bool.not_true, Bool.false_eq_true, if_false]
  split_ifs with hempty
  · rw [List.isEmpty_iff] at hempty
    exact ⟨s, rfl, hempty ▸ .nil s⟩
  · obtain ⟨hdone, hu⟩ := hok hrows
    rw [hdone, hu] at hpub
    cases hres : publishAll σ input e s (σ.config.outgoing e.processorId e.relationship)
        input.queueIds with
    | mk r t =>
      rw [hres] at hrows hpub
      cases hrows
      exact ⟨t, rfl, hpub⟩

/-- With fresh ids the repository takes the rows. -/
theorem exists_queueIds (σ : Setup) (now : ℤ) (e : ProcessorEmission) (s : State)
    (next : List ConnectionConfig) :
    ∃ queueIds, ∀ input : RouteInput, input.now = now →
      (publishAll σ input e s next queueIds).1 = .ok () := by
  induction next generalizing s with
  | nil => exact ⟨[], fun _ _ => rfl⟩
  | cons k next ih =>
    cases hdb : s.db with
    | none =>
      obtain ⟨queueIds, h⟩ := ih (s.push e k none)
      refine ⟨queueIds, fun input hnow => ?_⟩
      rw [publishAll, hdb]
      exact h input hnow
    | some db =>
      obtain ⟨queueId, hfresh⟩ := Database.exists_fresh db
      obtain ⟨mid, hmid⟩ := Database.insertPending_of_fresh
        (n := newRow σ.codec queueId σ.config.id k.target e.relationship e.packet) hfresh now
      obtain ⟨db', hdb'⟩ : ∃ db', enqueueRow σ db now e k queueId = some db' := by
        rw [enqueueRow, hmid]
        exact ⟨_, rfl⟩
      obtain ⟨queueIds, h⟩ := ih (s.pushRow e k queueId db')
      refine ⟨queueId :: queueIds, fun input hnow => ?_⟩
      rw [publishAll, hdb]
      simp only [hnow, hdb']
      exact h input hnow

/-- Publishing writes the queue, the repository and the marks of the model only. -/
theorem Publishes.frame {σ : Setup} {e : ProcessorEmission} {s t : State}
    {ks : List ConnectionConfig} (h : Publishes σ e s ks t) :
    t = { s with
      pending := t.pending
      next := t.next
      db := t.db
      trace := { s.trace with published := t.trace.published } } := by
  induction h with
  | nil s => rfl
  | volatile _ _ ih => exact ih
  | durable _ _ _ ih => exact ih

/-- A relationship that does not fit stays where it is, unless it is terminal. -/
theorem routeEmission_unfit {σ : Setup} {s : State} {e : ProcessorEmission} (input : RouteInput)
    (hfits : fits σ.config s.pending s.active
      (σ.config.outgoing e.processorId e.relationship) = false) :
    σ.config.outgoing e.processorId e.relationship = [] ∧
        routeEmission σ input s e = (.ok .routed, s.noteRouted e) ∨
      routeEmission σ input s e = (.ok .queueFull, s) := by
  unfold routeEmission
  simp only [hfits, Bool.not_false, if_true]
  split_ifs with hempty
  · exact .inl ⟨List.isEmpty_iff.mp hempty, rfl⟩
  · exact .inr rfl

/-- An attempt to route with memory granted and fresh ids: the emission is
routed, or it does not fit and is deferred. -/
theorem exists_attempt (σ : Setup) (s : State) (e : ProcessorEmission) (next : Phase) :
    ∃ input : RouteInput, input.memory = none ∧
      ((∃ t, Publishes σ e s (σ.config.outgoing e.processorId e.relationship) t ∧
          holdUnrouted e next (routeEmission σ input s e) =
            { t.noteRouted e with deferred := none, memoryStall := none, phase := next }) ∨
        fits σ.config s.pending s.active (σ.config.outgoing e.processorId e.relationship) = false ∧
          holdUnrouted e next (routeEmission σ input s e) =
            { s with deferred := some e, memoryStall := none, phase := next }) := by
  by_cases hfits : fits σ.config s.pending s.active
      (σ.config.outgoing e.processorId e.relationship) = true
  · obtain ⟨queueIds, hids⟩ := exists_queueIds σ 0 e s
      (σ.config.outgoing e.processorId e.relationship)
    have hrows := hids ⟨none, queueIds, none, 0, .channelClosed⟩ rfl
    obtain ⟨t, ht, hpub⟩ := routeEmission_routed hfits rfl hrows
    exact ⟨⟨none, queueIds, none, 0, .channelClosed⟩, rfl, .inl ⟨t, hpub, by rw [ht]; rfl⟩⟩
  · have hfalse : fits σ.config s.pending s.active
        (σ.config.outgoing e.processorId e.relationship) = false := by simpa using hfits
    refine ⟨⟨none, [], none, 0, .channelClosed⟩, rfl, ?_⟩
    rcases routeEmission_unfit (σ := σ) ⟨none, [], none, 0, .channelClosed⟩ hfalse with
      ⟨hnil, h⟩ | h <;> rw [h]
    · exact .inl ⟨s, hnil ▸ .nil s, rfl⟩
    · exact .inr ⟨hfalse, rfl⟩

end Jaiba.Engine
