import Jaiba.Engine.Publication
import Jaiba.Kafka.ConsumeKafka

/-!
# Offsets of `consume_kafka` and the flow engine

The consumer emits the packet of a message into the channel of the engine and
commits its offset at once. The loop routes the emission, and enqueues its rows,
in a step of its own. The machine is the run of the engine with the commits of
its consumers between any two of its steps.
-/

namespace Jaiba.Kafka
open Jaiba.Engine Jaiba.Lib Jaiba.Repository

/-! ### The executions of a consumer -/

/-- What one call of `execute` meets: the endpoint, the circuit and the
subscription, then the rounds for which the processor has time. -/
structure Execution where
  opening : Except FlowError Unit
  session : Session
  rounds : ℕ
  timeoutMs : ℕ

/-- `execute` within the time limit of the processor. -/
def ConsumeKafka.attempt (p : ConsumeKafka) (d : Decoder) (processorId : String)
    (x : Execution) : Attempt :=
  match x.opening with
  | .error e => ⟨[], .error e⟩
  | .ok () =>
    match p.after d x.session x.rounds with
    | .ended c result _ => ⟨c.outputs, result⟩
    | .polling c => ⟨c.outputs, .error (.processor processorId
        ("execution exceeded timeout of " ++ toString x.timeoutMs ++ " ms"))⟩

/-- The offset that the round commits. -/
def Round.offset (r : Round) : Option (ℤ × ℤ) :=
  match r.received, r.emitted, r.committed with
  | .message m, .ok (), .ok () => some (m.partition, m.offset)
  | _, _, _ => none

/-- A flow with its consumers. `origin` tells which round of which execution drew
a packet id; ids are drawn once. -/
structure Consumption where
  setup : Setup
  consumer : String → Option ConsumeKafka
  decoder : Decoder
  execution : ℕ → String → DataPacket → Execution
  origin : String → Option (ℕ × Round)
  executes : ∀ serial id packet p, consumer id = some p →
    setup.execute serial id packet = p.attempt decoder id (execution serial id packet)
  draws : ∀ serial id packet p, consumer id = some p →
    ∀ i m, ((execution serial id packet).session.round i).received = .message m →
      origin ((execution serial id packet).session.round i).fresh =
        some (serial, (execution serial id packet).session.round i)

namespace Consumption

variable (c : Consumption)

/-- The offset that execution `serial` commits after it has emitted the packet. -/
def offset (serial : ℕ) (packet : DataPacket) : Option (ℤ × ℤ) :=
  match c.origin packet.id with
  | some (n, r) => if n = serial then r.offset else none
  | none => none

end Consumption

theorem setAttribute_id (packet : DataPacket) (key value : String) :
    (packet.setAttribute key value).id = packet.id := rfl

theorem annotate_id (p : ConsumeKafka) (d : Decoder) (packet : DataPacket) (m : Message)
    (elapsed recordCount : ℕ) : (p.annotate d packet m elapsed recordCount).id = packet.id := by
  unfold ConsumeKafka.annotate
  dsimp only
  cases m.key with
  | none => simp only [setAttribute_id]
  | some key => simp only [setAttribute_id]

theorem packetOf_id (p : ConsumeKafka) (d : Decoder) (fresh : String) (elapsed : ℕ) (m : Message) :
    (p.packetOf d fresh elapsed m).2.id = fresh := by
  unfold ConsumeKafka.packetOf
  dsimp only
  split
  · rw [annotate_id]
    rfl
  · simp only [setAttribute_id, annotate_id]
    rfl

/-- The cycle at the end of some rounds. -/
def Poll.cycle : Poll → Cycle
  | .polling c => c
  | .ended c _ _ => c

theorem cycle_polling (c : Cycle) : (Poll.polling c).cycle = c := rfl

theorem cycle_ended (c : Cycle) (result : Except FlowError Unit) (failed : Bool) :
    (Poll.ended c result failed).cycle = c := rfl

/-- A round adds the packet of its message and, when the commit is issued, its offset. -/
theorem poll_cycle (p : ConsumeKafka) (d : Decoder) (started : ℕ) (r : Round) (c : Cycle) :
    ((p.poll d started r c).cycle.outputs = c.outputs ∧
        (p.poll d started r c).cycle.commits = c.commits) ∨
      ∃ m elapsed, r.received = .message m ∧
        (p.poll d started r c).cycle.outputs = c.outputs ++ [p.packetOf d r.fresh elapsed m] ∧
        (p.poll d started r c).cycle.commits = c.commits ++ r.offset.toList := by
  rw [ConsumeKafka.poll]
  by_cases hguard : p.maxPollMessages ≤ c.consumed ∨ c.idleDeadline - r.head = 0
  · rw [if_pos hguard]
    exact .inl ⟨rfl, rfl⟩
  · rw [if_neg hguard]
    cases hreceived : r.received with
    | message m =>
      dsimp only [ConsumeKafka.onMessage]
      cases hemitted : r.emitted with
      | error e => exact .inl ⟨rfl, rfl⟩
      | ok =>
        refine .inr ⟨m, r.seen - started, rfl, ?_⟩
        cases hcommitted : r.committed with
        | error e =>
          simp only [Round.offset, hreceived, hemitted, hcommitted, Poll.cycle, Option.toList_none,
            List.append_nil, and_self]
        | ok =>
          simp only [Round.offset, hreceived, hemitted, hcommitted, Poll.cycle, Option.toList_some,
            and_self]
    | error e =>
      refine .inl ?_
      dsimp only
      split
      · rw [cycle_polling]
        exact ⟨rfl, rfl⟩
      · rw [cycle_ended]
        exact ⟨rfl, rfl⟩
    | timeout =>
      dsimp only
      split
      · exact .inl ⟨rfl, rfl⟩
      · exact .inl ⟨rfl, rfl⟩

/-- The emissions of an execution and the offsets they are followed by: those
that the loop commits. -/
theorem offsets_of_outputs (c : Consumption) {serial : ℕ} {id : String} {packet : DataPacket}
    {p : ConsumeKafka} (hp : c.consumer id = some p) (n : ℕ) :
    (p.after c.decoder (c.execution serial id packet).session n).cycle.outputs.filterMap
        (fun e => c.offset serial e.2) =
      (p.after c.decoder (c.execution serial id packet).session n).cycle.commits := by
  induction n with
  | zero => rfl
  | succ n ih =>
    rw [ConsumeKafka.after]
    split
    next b hb =>
      rw [hb] at ih
      rcases poll_cycle p c.decoder (c.execution serial id packet).session.started
          ((c.execution serial id packet).session.round n) b with
        ⟨houtputs, hcommits⟩ | ⟨m, elapsed, hreceived, houtputs, hcommits⟩
      · rw [houtputs, hcommits]
        exact ih
      · have horigin := c.draws serial id packet p hp n m hreceived
        have hoffset : c.offset serial (p.packetOf c.decoder
            ((c.execution serial id packet).session.round n).fresh elapsed m).2 =
            ((c.execution serial id packet).session.round n).offset := by
          rw [Consumption.offset, packetOf_id, horigin]
          exact if_pos rfl
        have ih' : b.outputs.filterMap (fun e => c.offset serial e.2) = b.commits := ih
        rw [houtputs, hcommits, List.filterMap_append, ih', List.filterMap_cons, hoffset]
        cases ((c.execution serial id packet).session.round n).offset <;> rfl
    next ended hended => exact ih

/-! ### The machine -/

/-- A message with the execution that consumes it, its offset and its emission. -/
structure Commit where
  execution : ℕ
  offset : ℤ × ℤ
  emission : ProcessorEmission

/-- The run of the engine and its consumers: `uncommitted` holds the messages
that have been emitted and whose `commit_message` comes next in their execution. -/
structure Exchange where
  engine : State
  uncommitted : List Commit
  committed : List Commit

inductive Move where
  | engine (a : Action)
  /-- `consumer.commit_message`, also by a task that has not noticed the end of the run -/
  | commit (execution : ℕ)

namespace Consumption

variable (c : Consumption)

/-- The message that a task emits with the action. -/
def emitted (s : State) : Action → Option Commit
  | .emit i =>
    match s.running[i]? with
    | some t =>
      match c.consumer t.processorId, t.program.emits with
      | some _, (relationship, packet) :: _ =>
        (c.offset t.serial packet).map fun offset =>
          ⟨t.serial, offset, s.emission t relationship packet⟩
      | _, _ => none
    | none => none
  | _ => none

/-- The position of the task that goes on with the action. -/
def mover : Action → Option ℕ
  | .emit i => some i
  | .join i _ => some i
  | _ => none

/-- The task has a commit to make first. -/
def committing (s : Exchange) (a : Action) : Bool :=
  match (mover a).bind fun i => s.engine.running[i]? with
  | some t => s.uncommitted.any fun k => k.execution = t.serial
  | none => false

/-- The commit that comes next in an execution. -/
def due (s : Exchange) (execution : ℕ) : Option Commit :=
  s.uncommitted.find? fun k => k.execution = execution

def step (s : Exchange) : Move → Option Exchange
  | .engine a =>
    if committing s a then none
    else (Engine.step c.setup s.engine a).map fun t =>
      { s with engine := t, uncommitted := s.uncommitted ++ (c.emitted s.engine a).toList }
  | .commit execution =>
    (due s execution).map fun k =>
      { s with
        uncommitted := s.uncommitted.filter fun k => k.execution ≠ execution
        committed := s.committed ++ [k] }

def exchange : Machine Exchange Move := ⟨c.step⟩

end Consumption

/-! ### At least once -/

/-- Every message whose commit has been issued has a durable row for each
connection of the relationship it was emitted on. -/
def AtLeastOnce (σ : Setup) (s : Exchange) : Prop :=
  ∀ k ∈ s.committed, ∃ db, s.engine.db = some db ∧ Sent σ s.engine.trace.published db k.emission

/-- The condition on a step: when the offset of a message is committed, its
emission has left the channel and the deferred slot, and the run, if it has
ended, did not end before the emission was routed. -/
def Settled (σ : Setup) (s : Exchange) : Move → Prop
  | .engine _ => True
  | .commit execution => ∀ k, Consumption.due s execution = some k →
      k.emission ∉ s.engine.waiting ∧
        ∀ exit, s.engine.phase = .ended exit → Passed σ s.engine k.emission

/-- What is known in every state: the messages have been accepted by the engine. -/
structure Tracked (σ : Setup) (s : Exchange) (db : Database) : Prop where
  account : Account σ s.engine db
  uncommitted : ∀ k ∈ s.uncommitted, k.emission ∈ s.engine.trace.accepted
  committed : ∀ k ∈ s.committed, k.emission ∈ s.engine.trace.accepted

variable {c : Consumption} {s t : Exchange} {db : Database}

theorem emitted_accepted {a : Action} {u : State} {k : Commit} (hk : c.emitted s.engine a = some k)
    (hs : Engine.step c.setup s.engine a = some u) : k.emission ∈ u.trace.accepted := by
  obtain ⟨_, htr⟩ := step_transition hs
  cases htr with
  | @emit i x relationship packet rest u hx _ hemits hemit =>
    unfold Consumption.emitted at hk
    simp only [hx, hemits] at hk
    split at hk
    next heq =>
      cases heq
      obtain ⟨offset, _, rfl⟩ := Option.map_eq_some_iff.mp hk
      rw [emit_trace hemit]
      exact List.mem_append_right _ List.mem_cons_self
    · cases hk
  | _ => cases hk

/-- A step of the engine keeps what is known, and the rows of what is committed. -/
theorem Tracked.engine {a : Action} {u : State} (h : Tracked c.setup s db)
    (hs : Engine.step c.setup s.engine a = some u)
    (ht : t = { s with engine := u, uncommitted := s.uncommitted ++ (c.emitted s.engine a).toList }) :
    ∃ db', Tracked c.setup t db' ∧ (AtLeastOnce c.setup s → AtLeastOnce c.setup t) := by
  obtain ⟨db', haccount, hgrows⟩ := h.account.step hs
  subst ht
  refine ⟨db', ⟨haccount, fun k hk => ?_, fun k hk => hgrows.accepted (h.committed k hk)⟩,
    fun hall k hk => ?_⟩
  · rcases List.mem_append.mp hk with hk | hk
    · exact hgrows.accepted (h.uncommitted k hk)
    · exact emitted_accepted (Option.mem_toList.mp hk) hs
  · obtain ⟨d, hd, hsent⟩ := hall k hk
    rw [h.account.inv.repository] at hd
    cases hd
    exact ⟨db', haccount.inv.repository, hsent.keep hgrows.keeps hgrows.published⟩

/-- A commit keeps what is known, and the property exactly when it meets the condition. -/
theorem Tracked.commit {execution : ℕ} {k : Commit} (h : Tracked c.setup s db)
    (hall : AtLeastOnce c.setup s) (hk : Consumption.due s execution = some k)
    (ht : t = { s with
      uncommitted := s.uncommitted.filter fun k => k.execution ≠ execution
      committed := s.committed ++ [k] }) :
    Tracked c.setup t db ∧ (AtLeastOnce c.setup t ↔ Settled c.setup s (.commit execution)) := by
  have haccepted := h.uncommitted k (List.mem_of_find?_eq_some hk)
  have hcommitted : ∀ j ∈ s.committed ++ [k], j ∈ s.committed ∨ j = k := by
    intro j hj
    rcases List.mem_append.mp hj with hj | hj
    · exact .inl hj
    · exact .inr (List.mem_singleton.mp hj)
  subst ht
  refine ⟨⟨h.account, fun j hj => h.uncommitted j (List.mem_filter.mp hj).1, fun j hj => ?_⟩, ?_⟩
  · rcases hcommitted j hj with hj | rfl
    · exact h.committed j hj
    · exact haccepted
  · have hsettled : Settled c.setup s (.commit execution) ↔
        Sent c.setup s.engine.trace.published db k.emission := by
      rw [← h.account.settled_iff haccepted]
      constructor
      · exact fun hcond => hcond k hk
      · intro hcond j hj
        rw [hk] at hj
        cases hj
        exact hcond
    rw [hsettled]
    constructor
    · intro hafter
      obtain ⟨d, hd, hsent⟩ := hafter k (List.mem_append_right _ List.mem_cons_self)
      have hd' : s.engine.db = some d := hd
      rw [h.account.inv.repository] at hd'
      cases hd'
      exact hsent
    · intro hsent j hj
      rcases hcommitted j hj with hj | rfl
      · exact hall j hj
      · exact ⟨db, h.account.inv.repository, hsent⟩

theorem step_tracked {a : Move} (h : Tracked c.setup s db) (hall : AtLeastOnce c.setup s)
    (hs : c.step s a = some t) :
    ∃ db', Tracked c.setup t db' ∧ (AtLeastOnce c.setup t ↔ Settled c.setup s a) := by
  cases a with
  | engine a =>
    rw [Consumption.step] at hs
    split_ifs at hs
    obtain ⟨u, hu, rfl⟩ := Option.map_eq_some_iff.mp hs
    obtain ⟨db', htracked, hkeep⟩ := h.engine hu rfl
    exact ⟨db', htracked, fun _ => trivial, fun _ => hkeep hall⟩
  | commit execution =>
    rw [Consumption.step] at hs
    obtain ⟨k, hk, rfl⟩ := Option.map_eq_some_iff.mp hs
    exact ⟨db, h.commit hall hk rfl⟩

/-- In every run in which an offset is committed only once the emission of its
message has settled, every committed message is durable, wherever the run stops;
and in such a run a step keeps this exactly when it meets the condition. -/
theorem offsets_durable (c : Consumption) (l : Launch) {s₀ : State} {s : Exchange}
    (henabled : c.setup.config.engine.repositoryEnabled) (hstart : start c.setup l = .ok s₀)
    (h : c.exchange.Reach (Settled c.setup) ⟨s₀, [], []⟩ s) :
    AtLeastOnce c.setup s ∧ ∀ a t, c.step s a = some t → (AtLeastOnce c.setup t ↔ Settled c.setup s a) := by
  have hrun : ∃ db, Tracked c.setup s db ∧ AtLeastOnce c.setup s := by
    refine h.invariant (I := fun s => ∃ db, Tracked c.setup s db ∧ AtLeastOnce c.setup s) ?_
      fun s a t hi hok hs => ?_
    · obtain ⟨db, haccount⟩ := start_account henabled hstart
      exact ⟨db, ⟨haccount, List.forall_mem_nil _, List.forall_mem_nil _⟩, List.forall_mem_nil _⟩
    · obtain ⟨db, htracked, hall⟩ := hi
      obtain ⟨db', htracked', hiff⟩ := step_tracked htracked hall hs
      exact ⟨db', htracked', hiff.mpr hok⟩
  obtain ⟨db, htracked, hall⟩ := hrun
  refine ⟨hall, fun a t hs => ?_⟩
  obtain ⟨_, _, hiff⟩ := step_tracked htracked hall hs
  exact hiff

/-! ### One message -/

theorem pollMessages_pos : 0 < 100 := by decide

theorem idleMillis_pos : 0 < 2000 := by decide

def bytesConsumer : ConsumeKafka :=
  ⟨"events", "orders", "readers", 100, 2000, .bytes, pollMessages_pos, idleMillis_pos⟩

/-- The first execution gets one message in its first round; there is nothing else. -/
def messageRound (serial n : ℕ) : Round where
  head := millis (500 * n)
  received := if serial = 0 ∧ n = 0 then .message ⟨0, 41, none, some [55]⟩ else .timeout
  seen := millis (500 * n + 500)
  fresh := "p-41"
  emitted := .ok ()
  committed := .ok ()

def messageConsumption : Consumption where
  setup :=
    { config := pairFlow
      codec := exampleCodec
      execute := fun serial id packet =>
        if id = "a" then
          bytesConsumer.attempt ⟨fun _ => .error "", fun _ => ""⟩ id ⟨.ok (), ⟨0, 0, messageRound serial⟩, 2, 0⟩
        else ⟨[], .ok ()⟩
      processorMode := fun _ => .asyncIo
      pool := fun _ => 1 }
  consumer := fun id => if id = "a" then some bytesConsumer else none
  decoder := ⟨fun _ => .error "", fun _ => ""⟩
  execution := fun serial _ _ => ⟨.ok (), ⟨0, 0, messageRound serial⟩, 2, 0⟩
  origin := fun id => if id = "p-41" then some (0, messageRound 0 0) else none
  executes := by
    intro serial id packet p hp
    split at hp
    next hid =>
      cases hp
      exact if_pos hid
    · cases hp
  draws := by
    intro serial id packet p _ i m hreceived
    have hround : serial = 0 ∧ i = 0 := by
      by_contra hno
      have hround : (messageRound serial i).received = .message m := hreceived
      unfold messageRound at hround
      dsimp only at hround
      rw [if_neg hno] at hround
      cases hround
    obtain ⟨rfl, rfl⟩ := hround
    exact if_pos rfl

/-- A commit at the head of the loop, with nothing in the channel. -/
def idle (s : Exchange) : Move → Bool
  | .engine _ => true
  | .commit _ => s.engine.waiting.isEmpty && decide (s.engine.phase = .head)

theorem settled_of_idle {σ : Setup} {s : Exchange} {a : Move} (h : idle s a = true) :
    Settled σ s a := by
  cases a with
  | engine a => trivial
  | commit execution =>
    rw [idle, Bool.and_eq_true, List.isEmpty_iff, decide_eq_true_eq] at h
    intro k _
    refine ⟨fun hw => ?_, fun exit hexit => ?_⟩
    · rw [h.1] at hw
      cases hw
    · rw [h.2] at hexit
      cases hexit

/-- The message is emitted, received and routed, then its offset is committed. -/
theorem offsets_durable_after_receive :
    ∃ s₀ s, start messageConsumption.setup (exampleLaunch []) = .ok s₀ ∧
      messageConsumption.exchange.exec ⟨s₀, [], []⟩ [.engine (.head (grantedAt 21 [])),
        .engine (.schedule (claimsAt 22)), .engine .check, .engine (.emit 0),
        .engine (.receive (grantedAt 23 ["q-1"])), .commit 0] = some s ∧
      s.committed.map Commit.offset = [(0, 41)] ∧
      (s.engine.db.bind fun db => db.statusOf "q-1") = some .pending ∧
      AtLeastOnce messageConsumption.setup s := by
  exact ⟨_, _, rfl, rfl, rfl, by decide, (offsets_durable messageConsumption (exampleLaunch []) rfl rfl
    (.of_guarded (fun _ _ => settled_of_idle) [.engine (.head (grantedAt 21 [])),
      .engine (.schedule (claimsAt 22)), .engine .check, .engine (.emit 0),
      .engine (.receive (grantedAt 23 ["q-1"])), .commit 0] rfl)).1⟩

/-- The offset is committed while the emission is in the channel: there is no
row, and nothing of the message is left after a crash. -/
theorem offset_before_row :
    ∃ s₀ s, create .asStored pairFlow = .ok pairFlow ∧
      start messageConsumption.setup (exampleLaunch []) = .ok s₀ ∧
      messageConsumption.exchange.exec ⟨s₀, [], []⟩ [.engine (.head (grantedAt 21 [])),
        .engine (.schedule (claimsAt 22)), .engine .check, .engine (.emit 0), .commit 0] = some s ∧
      s.committed.map Commit.offset = [(0, 41)] ∧ ¬ AtLeastOnce messageConsumption.setup s := by
  refine ⟨_, _, rfl, rfl, rfl, rfl, fun h => ?_⟩
  obtain ⟨db, _, queueIds, _, hall⟩ := h _ List.mem_cons_self
  cases (hall : List.Forall₂ _ [exampleConnection "a" "b"] queueIds) with
  | cons hhead _ => exact absurd hhead.1 List.not_mem_nil

end Jaiba.Kafka
