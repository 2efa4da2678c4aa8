import Jaiba.Server.Api

/-!
# Requests and the flows they may touch

Whatever requests are under way, what changes of a flow goes back to a request
that was authorized for it, and a response shows only flows that its caller is
allowed. A dead letter is the exception: it is put back by its own id, whichever
flow of the database it belongs to.
-/

namespace Jaiba.Server.FlowScheduler
open Jaiba.Lib

variable {calendar : Calendar} {s t : State} {a : Action} {i : ℕ} {c : Call} {f : String}

/-- The calls stay those of the same flows, and other flows keep their tickers. -/
structure Only (s t : State) : Prop where
  calls : ∀ c ∈ t.calls, ∃ d ∈ s.calls, d.flow = c.flow
  armed : ∀ f, (∀ c ∈ s.calls, c.flow ≠ f) → Dict.get? t.armed f = Dict.get? s.armed f

theorem setStage_only (hc : s.calls[i]? = some c) (stage : CallStage) (hcalls : t.calls = s.calls)
    (harmed : ∀ f, f ≠ c.flow → Dict.get? t.armed f = Dict.get? s.armed f) :
    Only s (t.setStage i c stage) where
  calls := by
    intro d hd
    rw [State.setStage, hcalls] at hd
    rcases List.mem_or_eq_of_mem_set hd with hd | rfl
    · exact ⟨d, hd, rfl⟩
    · exact ⟨c, List.mem_of_getElem? hc, rfl⟩
  armed := fun f hf => harmed f fun heq => hf c (List.mem_of_getElem? hc) heq.symm

theorem remove_spec (s : State) (flow : String) :
    (s.remove flow).calls = s.calls ∧
      ∀ f, f ≠ flow → Dict.get? (s.remove flow).armed f = Dict.get? s.armed f := by
  unfold State.remove
  split
  · exact ⟨rfl, fun _ _ => rfl⟩
  · refine ⟨rfl, fun f hf => ?_⟩
    rw [Dict.get?_erase, if_neg hf]

theorem launch_only (hc : s.calls[i]? = some c) (schedule : ScheduleConfig) (hcalls : t.calls = s.calls)
    (harmed : ∀ f, f ≠ c.flow → Dict.get? t.armed f = Dict.get? s.armed f) :
    Only s (t.launch i c schedule) := by
  unfold State.launch
  split
  · exact setStage_only hc _ hcalls harmed
  · have h := setStage_only hc (.record t.tickers.length) hcalls harmed
    exact ⟨h.calls, h.armed⟩

/-- A step that begins no call touches the flows of the calls under way. -/
theorem step_only (hs : step calendar s a = some t)
    (ha : ∀ flow, a ≠ .arm flow ∧ a ≠ .disarm flow) : Only s t := by
  cases a with
  | arm flow => exact absurd rfl (ha flow).1
  | disarm flow => exact absurd rfl (ha flow).2
  | look i found =>
    obtain ⟨c, hc, hs⟩ := Option.bind_eq_some_iff.mp hs
    have hstay : ∀ stage, Only s (s.setStage i c stage) := fun stage =>
      setStage_only hc stage rfl fun _ _ => rfl
    unfold State.look at hs
    split at hs
    · cases hs
      exact hstay _
    · cases hs
      exact hstay _
    · split_ifs at hs
      · cases hs
        exact hstay _
      · split at hs <;> cases hs
        · exact hstay _
        · exact hstay _
    · cases hs
  | lock i lastFireAt now =>
    obtain ⟨c, hc, hs⟩ := Option.bind_eq_some_iff.mp hs
    obtain ⟨hcalls, harmed⟩ := remove_spec s c.flow
    unfold State.lock at hs
    split at hs
    · cases hs
      exact setStage_only hc _ hcalls harmed
    · split_ifs at hs <;> cases hs
      · exact setStage_only hc _ hcalls harmed
      · exact launch_only hc _ hcalls harmed
    next k =>
      cases hs
      have h := setStage_only (t := s) hc .done rfl fun _ _ => rfl
      refine ⟨h.calls, fun f hf => ?_⟩
      rw [Dict.get?_insert, if_neg fun heq => hf c (List.mem_of_getElem? hc) heq.symm]
    · cases hs
  | fire i answer =>
    obtain ⟨c, hc, hs⟩ := Option.bind_eq_some_iff.mp hs
    unfold State.fire at hs
    split at hs
    · split at hs <;> cases hs
      · exact setStage_only hc _ rfl fun _ _ => rfl
      · exact launch_only hc _ rfl fun _ _ => rfl
    · cases hs
  | tick k answer now =>
    obtain ⟨ticker, -, hs⟩ := Option.bind_eq_some_iff.mp hs
    obtain ⟨stage, -, rfl⟩ := Option.map_eq_some_iff.mp hs
    exact ⟨fun c hc => ⟨c, hc, rfl⟩, fun _ _ => rfl⟩
  | cancel i =>
    obtain ⟨c, hc, hs⟩ := Option.bind_eq_some_iff.mp hs
    unfold State.cancel at hs
    split_ifs at hs
    cases hs
    exact setStage_only hc _ rfl fun _ _ => rfl

end Jaiba.Server.FlowScheduler

namespace Jaiba.Server.Api
open Jaiba.Lib Jaiba.Repository Jaiba.Server.Auth

/-! ### What a request is authorized for -/

/-- A handler that was authorized for the flow `g` may write the flow `f`. A
draft that comes with its deployment is filed under the trimmed id. -/
inductive Route.Writes (codec : Codec) : Route → String → String → Prop where
  | create {body g : String} : codec.draftFlowId body = .ok g → Writes codec (.createFlow body) g g
  | draft {id : String} {start : Bool} {body : String} :
      Writes codec (.deployFlow id start body) id (trimmed id)
  | path {route : Route} {id : String} : route.permission = .operate → route.pathFlow = some id →
      Writes codec route id id

/-- The handler runs in the context of a token that was accepted for its route. -/
def Session.Granted (codec : Codec) (admin : AdminAccess) (x : Session) (ctx : AuthContext) : Prop :=
  x.ctx = some ctx ∧ ∃ c, authorize codec admin c x.route = .ok ctx

/-- The request may change the flow. -/
def Session.Changes (codec : Codec) (admin : AdminAccess) (x : Session) (f : String) : Prop :=
  ∃ ctx g, x.Granted codec admin ctx ∧ ctx.allowsProject g = true ∧ x.route.Writes codec g f

/-- The request replays the dead letter, in the name of a flow it is allowed. -/
def Session.Replays (codec : Codec) (admin : AdminAccess) (x : Session) (queueId : String) : Prop :=
  ∃ ctx flow g, x.Granted codec admin ctx ∧ x.route = .replayDeadLetter queueId flow ∧
    ctx.allowsProject g = true ∧ (flow = none ∨ flow = some g)

/-- Everything in the response is of flows that the caller is allowed; `owner`
says for which flow a supervisor runs. -/
def Body.Within (codec : Codec) (owner : Owner) (ctx : AuthContext) : Body → Prop
  | .message _ => True
  | .records rs =>
    ∀ r ∈ rs, ∃ g, ctx.allowsProject g = true ∧ r.OfFlow codec.registry g
  | .created id _ | .validation id .. => ctx.allowsProject id = true
  | .snapshot supervisor => ∃ g, ctx.allowsProject g = true ∧ owner supervisor = some g
  | .record r => ∃ g, ctx.allowsProject g = true ∧ r.OfFlow codec.registry g
  | .versions vs => ∃ g, ctx.allowsProject g = true ∧
      ∀ v ∈ vs, codec.registry.flowId v.source = .ok g
  | .yaml source => ∃ g, ctx.allowsProject g = true ∧ codec.registry.flowId source = .ok g
  | .view r runtime => ∃ g, ctx.allowsProject g = true ∧ r.OfFlow codec.registry g ∧
      ∀ supervisor, runtime = some supervisor → owner supervisor = some g
  | .metrics supervisors =>
    ∀ n ∈ supervisors, ∃ g, ctx.allowsProject g = true ∧ owner n = some g
  | .provenance entries => ∀ e ∈ entries, ctx.allowsProject e.2.flowId = true
  | .deadLetters entries => ∀ e ∈ entries, ctx.allowsProject e.flowId = true

/-- The flow in the path of a request that may write it. -/
def Route.Aims (route : Route) (id : String) : Prop :=
  route.permission = .operate ∧ route.pathFlow = some id

/-- What a handler knows where it waits; the calls below `n` have their flow. -/
def Stage.Sound (codec : Codec) (owner : Owner) (flow : ℕ → String) (n : ℕ) (ctx : AuthContext)
    (route : Route) : Stage → Prop
  | .creating k => k < n ∧ ctx.allowsProject (flow k) = true
  | .drafting k id _ => k < n ∧ route.Aims id
  | .validating k id _ _ | .deploying k id _ => k < n ∧ flow k = id ∧ route.Aims id
  | .resolving id _ request => route.Aims id ∧
      ((∃ version start, request = .deployVersion id version start) ∨ ∃ start, request = .rollback id start)
  | .reporting k | .stopping k => k < n ∧ route.Aims (flow k)
  | .viewing id record => route.pathFlow = some id ∧ record.OfFlow codec.registry id
  | .operating id supervisor _ => route.Aims id ∧ owner supervisor = some id
  | .triggered id | .disarming _ id => route.Aims id
  | .syncing _ supervisor => ∃ id, route.Aims id ∧ owner supervisor = some id
  | .repository id lookup | .querying _ id lookup => ctx.allowsProject id = true ∧
      ∀ q, lookup = .replay q → ∃ flow, route = .replayDeadLetter q flow ∧ (flow = none ∨ flow = some id)
  | .done response => response.body.Within codec owner ctx

/-- A handler that was let in knows what it knows; one that was not has only a
message for its caller. -/
def Session.Sound (codec : Codec) (admin : AdminAccess) (owner : Owner) (flow : ℕ → String) (n : ℕ)
    (x : Session) : Prop :=
  match x.ctx with
  | none => ∃ refusal, x.stage = .done (refused refusal)
  | some ctx => x.Granted codec admin ctx ∧ x.stage.Sound codec owner flow n ctx x.route

/-! ### What a handler may do up to its next await -/

/-- The effects of a handler; `changes` are the flows and `replays` the dead
letters that its request may touch. -/
inductive Outcome (codec : Codec) (changes replays : String → Prop) (owner : Owner)
    (flow : ℕ → String) (ctx : AuthContext) (route : Route) (s : AppState) : AppState × Stage → Prop where
  | stay {stage : Stage} : stage.Sound codec owner flow s.registry.calls.length ctx route →
      Outcome codec changes replays owner flow ctx route s (s, stage)
  | call {request : Server.Request} {stage : Stage} (id : String) (first : Server.Stage) : changes id →
      s.registry.accept request = { s.registry with calls := s.registry.calls ++ [⟨first, none⟩] } →
      first.WorksFor codec.registry owner id →
      stage.Sound codec owner (Function.update flow s.registry.calls.length id)
        (s.registry.calls.length + 1) ctx route →
      Outcome codec changes replays owner flow ctx route s (s.call request, stage)
  | schedule {call : FlowScheduler.Call} {stage : Stage} : changes call.flow →
      stage.Sound codec owner flow s.registry.calls.length ctx route →
      Outcome codec changes replays owner flow ctx route s (s.schedule call, stage)
  | tell {id : String} {supervisor : ℕ} {operation : Operation} {stage : Stage} : changes id →
      stage.Sound codec owner flow s.registry.calls.length ctx route →
      Outcome codec changes replays owner flow ctx route s (s.tell id supervisor operation, stage)
  | requeue {database queueId : String} {now : ℤ} {stage : Stage} : replays queueId →
      stage.Sound codec owner flow s.registry.calls.length ctx route →
      Outcome codec changes replays owner flow ctx route s ({ s with
        databases := Function.update s.databases database
          ((s.databases database).requeueDeadLetter now queueId).2 }, stage)

section outcome
variable {codec : Codec} {admin : AdminAccess} {owner owner' : Owner} {flow flow' : ℕ → String}
  {n n' : ℕ} {ctx : AuthContext} {route : Route} {s t : AppState} {x : Session} {stage : Stage}
  {a : Answer} {c : Credentials} {changes replays : String → Prop}

theorem Outcome.sessions {r : AppState × Stage} (h : Outcome codec changes replays owner flow ctx route s r) :
    r.1.sessions = s.sessions := by
  cases h <;> rfl

theorem Body.Within.mono {body : Body} (h : body.Within codec owner ctx) (hext : owner.Extends owner') :
    body.Within codec owner' ctx := by
  cases body with
  | snapshot => exact h.imp fun _ hg => ⟨hg.1, hext _ _ hg.2⟩
  | view => exact h.imp fun _ hg => ⟨hg.1, hg.2.1, fun k hk => hext _ _ (hg.2.2 k hk)⟩
  | metrics => exact fun k hk => (h k hk).imp fun _ hg => ⟨hg.1, hext _ _ hg.2⟩
  | _ => exact h

theorem Stage.Sound.mono (h : stage.Sound codec owner flow n ctx route) (hext : owner.Extends owner')
    (hn : n ≤ n') (hflow : ∀ k, k < n → flow' k = flow k) :
    stage.Sound codec owner' flow' n' ctx route := by
  cases stage with
  | creating k => exact ⟨h.1.trans_le hn, hflow k h.1 ▸ h.2⟩
  | drafting k => exact ⟨h.1.trans_le hn, h.2⟩
  | validating k | deploying k => exact ⟨h.1.trans_le hn, (hflow k h.1).trans h.2.1, h.2.2⟩
  | reporting k | stopping k => exact ⟨h.1.trans_le hn, hflow k h.1 ▸ h.2⟩
  | operating => exact ⟨h.1, hext _ _ h.2⟩
  | syncing => exact h.imp fun _ hg => ⟨hg.1, hext _ _ hg.2⟩
  | done => exact Body.Within.mono h hext
  | _ => exact h

theorem Codec.draftFlowId_ok {body id : String} (h : codec.draftFlowId body = .ok id) :
    codec.registry.flowId body = .ok id := by
  unfold Codec.draftFlowId at h
  split at h
  · cases h
  next config hconfig =>
    simp only at h
    split_ifs at h
    cases h
    show (codec.config body).map _ = _
    rw [hconfig]
    rfl

theorem Codec.parseAndValidate_ok {body : String} {config : FlowConfig}
    (h : codec.parseAndValidate body = .ok config) : codec.registry.flowId body = .ok (trimmed config.id) := by
  unfold Codec.parseAndValidate at h
  split at h
  · cases h
  next config' hconfig =>
    split_ifs at h
    split at h <;> cases h
    show (codec.config body).map _ = _
    rw [hconfig]
    rfl

theorem authorize_ok (h : authorize codec admin c route = .ok ctx) :
    ctx.hasPermission route.permission = true ∧
      ∀ id, route.pathFlow = some id → ctx.allowsProject id = true := by
  unfold authorize at h
  split at h
  next hnone =>
    refine ⟨authorizePerm_permission h, fun id hid => ?_⟩
    rw [hnone] at hid
    cases hid
  next id' hsome =>
    obtain ⟨hperm, hallow⟩ := authorizeFlow_ok h
    refine ⟨authorizePerm_permission hperm, fun id hid => ?_⟩
    rw [hsome] at hid
    cases hid
    exact hallow

theorem registryError_within (e : RegistryError) :
    (registryError e).body.Within codec owner ctx := by
  cases e <;> trivial

/-- What a call of the registry has answered is of its flow. -/
theorem reply_worksFor {k : ℕ} {reply : Reply} (hworks : s.registry.Works codec.registry owner flow)
    (h : reply? s k = some (.ok reply)) : reply.WorksFor codec.registry owner (flow k) := by
  obtain ⟨c, hc, hdone⟩ := Option.bind_eq_some_iff.mp h
  have hw := hworks.calls k c hc
  split at hdone
  next r hstage =>
    cases hdone
    rw [hstage] at hw
    exact hw reply rfl
  · cases hdone

theorem lookupFlow_outcome {target : Option String} {lookup : Lookup}
    (hroute : ∀ q, lookup = .replay q → route = .replayDeadLetter q target) :
    Outcome codec changes replays owner flow ctx route s (lookupFlow s ctx target lookup) := by
  unfold lookupFlow
  split
  · exact .stay trivial
  next id hid =>
    split_ifs with hallow
    · refine .stay ⟨hallow, fun q hq => ⟨target, hroute q hq, ?_⟩⟩
      cases target with
      | none => exact .inl rfl
      | some g => exact .inr hid
    · exact .stay trivial

theorem queried_outcome {database id : String} {lookup : Lookup} (hallow : ctx.allowsProject id = true)
    (hreplays : ∀ q, lookup = .replay q → replays q) :
    Outcome codec changes replays owner flow ctx route s (queried s a database id lookup) := by
  unfold queried
  split
  · exact .stay trivial
  · cases lookup with
    | provenance packetId limit =>
      cases packetId with
      | none =>
        refine .stay fun e he => ?_
        rw [Database.recentProvenance_flowId e he]
        exact hallow
      | some packetId =>
        refine .stay fun e he => ?_
        rw [Database.provenanceForPacket_flowId e he]
        exact hallow
    | deadLetters limit =>
      dsimp only
      split
      · exact .stay trivial
      next entries hentries =>
        refine .stay fun e he => ?_
        rw [Database.deadLetters_flowId hentries e he]
        exact hallow
    | replay q =>
      refine .requeue (hreplays q rfl) ?_
      split_ifs <;> trivial

section granted
variable (hpath : ∀ id, route.pathFlow = some id → ctx.allowsProject id = true)
  (hchanges : ∀ g f, ctx.allowsProject g = true → route.Writes codec g f → changes f)
include hpath hchanges

/-- A call of the registry about the flow in the path. -/
theorem Outcome.aimed {request : Server.Request} (id : String) (first : Server.Stage)
    (haims : route.Aims id)
    (haccept : s.registry.accept request =
      { s.registry with calls := s.registry.calls ++ [⟨first, none⟩] })
    (hfirst : first.WorksFor codec.registry owner id)
    (hstage : stage.Sound codec owner (Function.update flow s.registry.calls.length id)
      (s.registry.calls.length + 1) ctx route) :
    Outcome codec changes replays owner flow ctx route s (s.call request, stage) :=
  .call id first (hchanges id id (hpath id haims.2) (.path haims.1 haims.2)) haccept hfirst hstage

theorem syncSchedule_outcome {id : String} {started : Bool} {supervisor : ℕ} (haims : route.Aims id)
    (howner : owner supervisor = some id) :
    Outcome codec changes replays owner flow ctx route s (syncSchedule s id started supervisor) := by
  have hchange := hchanges id id (hpath id haims.2) (.path haims.1 haims.2)
  refine .schedule ?_ ⟨id, haims, howner⟩
  split_ifs <;> exact hchange

theorem operated_outcome {id : String} {supervisor : ℕ} {operation : Operation} (haims : route.Aims id)
    (howner : owner supervisor = some id) :
    Outcome codec changes replays owner flow ctx route s (operated s a id supervisor operation) := by
  have hsnapshot : Outcome codec changes replays owner flow ctx route s
      (s, .done ⟨200, .snapshot supervisor⟩) := .stay ⟨id, hpath id haims.2, howner⟩
  cases operation with
  | start =>
    dsimp only [operated]
    split
    · exact .stay trivial
    · exact syncSchedule_outcome hpath hchanges haims howner
    · exact .stay trivial
  | trigger =>
    dsimp only [operated]
    split
    · split_ifs <;> exact .stay trivial
    · exact .stay trivial
    · exact .stay haims
    · exact .stay trivial
  | pause | resume | drain =>
    dsimp only [operated]
    split_ifs
    · exact hsnapshot
    · exact .stay trivial

variable (hworks : s.registry.Works codec.registry owner flow)
include hworks

theorem mutateSync_outcome {id : String} {operation : Operation} (haims : route.Aims id) :
    Outcome codec changes replays owner flow ctx route s (mutateSync s id operation) := by
  unfold mutateSync
  split
  · exact .stay trivial
  next e he =>
    exact .tell (hchanges id id (hpath id haims.2) (.path haims.1 haims.2))
      ⟨haims, hworks.running id e he⟩

theorem handle_outcome :
    Outcome codec changes replays owner flow ctx route s (handle codec s ctx route) := by
  have hrecord : ∀ id r, Dict.get? s.registry.records id = some r → r.OfFlow codec.registry id :=
    hworks.records
  cases route with
  | listFlows =>
    refine .stay fun r hr => ?_
    obtain ⟨hmem, hallow⟩ := List.mem_filter.mp hr
    obtain ⟨⟨id, r'⟩, hrow, rfl⟩ := List.mem_map.mp ((List.mem_insertionSort _).mp hmem)
    have hof := hrecord id r' (Dict.mem_rows_iff.mp hrow)
    refine ⟨id, ?_, hof⟩
    rw [← hof.named]
    exact hallow
  | createFlow body =>
    dsimp only [handle]
    split
    · exact .stay trivial
    next id hid =>
      split_ifs with hallow
      · refine .call id (.createDraft body none) (hchanges id id hallow (.create hid)) rfl
          (fun id' hid' => ?_) ⟨Nat.lt_succ_self _, ?_⟩
        · rw [codec.draftFlowId_ok hid] at hid'
          exact (Except.ok.inj hid').symm
        · rw [Function.update_self]
          exact hallow
      · exact .stay trivial
  | validateFlow body =>
    dsimp only [handle]
    split
    · exact .stay trivial
    · split_ifs with hallow
      · exact .stay hallow
      · exact .stay trivial
  | getFlow id =>
    dsimp only [handle]
    split
    · exact .stay trivial
    next r hr => exact .stay ⟨rfl, hrecord id r hr⟩
  | deployFlow id start body =>
    dsimp only [handle]
    split
    · exact .stay trivial
    next config hconfig =>
      split_ifs with hid
      · exact .stay trivial
      · rw [not_not] at hid
        refine .call (trimmed id) (.createDraft body none) (hchanges id _ (hpath id rfl) .draft) rfl
          (fun id' hid' => ?_) ⟨Nat.lt_succ_self _, rfl, rfl⟩
        rw [codec.parseAndValidate_ok hconfig, hid] at hid'
        exact (Except.ok.inj hid').symm
  | listVersions id =>
    dsimp only [handle]
    split
    · exact .stay trivial
    next r hr => exact .stay ⟨id, hpath id rfl, (hrecord id r hr).sources⟩
  | exportVersion id version =>
    dsimp only [handle]
    split
    · exact .stay trivial
    next v hv =>
      obtain ⟨r, hr, hv⟩ := Option.bind_eq_some_iff.mp hv
      exact .stay ⟨id, hpath id rfl, (hrecord id r hr).sources v (FlowRecord.version?_mem hv).1⟩
  | validateVersion id version | archiveVersion id version =>
    refine Outcome.aimed hpath hchanges id _ ⟨rfl, rfl⟩ rfl rfl ⟨Nat.lt_succ_self _, ?_⟩
    rw [Function.update_self]
    exact ⟨rfl, rfl⟩
  | deployVersion id version start => exact .stay ⟨⟨rfl, rfl⟩, .inl ⟨version, start, rfl⟩⟩
  | rollbackFlow id start => exact .stay ⟨⟨rfl, rfl⟩, .inr ⟨start, rfl⟩⟩
  | startFlow id | pauseFlow id | resumeFlow id | drainFlow id =>
    exact mutateSync_outcome hpath hchanges hworks ⟨rfl, rfl⟩
  | triggerFlow id =>
    dsimp only [handle]
    split
    · exact .stay trivial
    next e he =>
      exact .tell (hchanges id id (hpath id rfl) (.path rfl rfl)) ⟨⟨rfl, rfl⟩, hworks.running id e he⟩
  | stopFlow id => exact .schedule (hchanges id id (hpath id rfl) (.path rfl rfl)) ⟨rfl, rfl⟩
  | prometheus =>
    refine .stay fun k hk => ?_
    obtain ⟨⟨id, e⟩, he, rfl⟩ := List.mem_map.mp hk
    obtain ⟨hrow, hallow⟩ := List.mem_filter.mp he
    exact ⟨id, hallow, hworks.running id e (Dict.mem_rows_iff.mp hrow)⟩
  | provenance target packetId limit => exact lookupFlow_outcome fun q hq => nomatch hq
  | deadLetters target limit => exact lookupFlow_outcome fun q hq => nomatch hq
  | replayDeadLetter queueId target =>
    refine lookupFlow_outcome fun q hq => ?_
    cases hq
    rfl

theorem resume_outcome {r : AppState × Stage}
    (hreplays : ∀ q target g, route = .replayDeadLetter q target → ctx.allowsProject g = true →
      (target = none ∨ target = some g) → replays q)
    (h : stage.Sound codec owner flow s.registry.calls.length ctx route)
    (hs : resume codec s a stage = some r) :
    Outcome codec changes replays owner flow ctx route s r := by
  have hfailed : ∀ e, Outcome codec changes replays owner flow ctx route s (s, .done (registryError e)) :=
    fun e => .stay (registryError_within e)
  cases stage with
  | creating k =>
    dsimp only [resume] at hs
    split at hs <;> cases hs
    · exact hfailed _
    next id version hreply =>
      have hid : id = flow k := reply_worksFor hworks hreply
      exact .stay (hid ▸ h.2)
  | drafting k id start =>
    dsimp only [resume] at hs
    split at hs <;> cases hs
    · exact hfailed _
    · exact Outcome.aimed hpath hchanges id _ h.2 rfl rfl
        ⟨Nat.lt_succ_self _, Function.update_self .., h.2⟩
  | validating k id version start =>
    dsimp only [resume] at hs
    split at hs <;> cases hs
    · exact hfailed _
    · exact .stay ⟨h.2.2, .inl ⟨version, start, rfl⟩⟩
  | resolving id start request =>
    obtain ⟨haims, hrequest⟩ := h
    dsimp only [resume] at hs
    split at hs <;> cases hs
    · exact .stay trivial
    · have hstage : (Stage.deploying s.registry.calls.length id start).Sound codec owner
          (Function.update flow s.registry.calls.length id) (s.registry.calls.length + 1) ctx route :=
        ⟨Nat.lt_succ_self _, Function.update_self .., haims⟩
      rcases hrequest with ⟨version, start', rfl⟩ | ⟨start', rfl⟩
      · exact Outcome.aimed hpath hchanges id _ haims rfl rfl hstage
      · exact Outcome.aimed hpath hchanges id _ haims rfl rfl hstage
  | deploying k id start =>
    dsimp only [resume] at hs
    split at hs <;> cases hs
    · exact hfailed _
    next supervisor hreply =>
      have howner : owner supervisor = some (flow k) := reply_worksFor hworks hreply
      exact syncSchedule_outcome hpath hchanges h.2.2 (h.2.1 ▸ howner)
  | reporting k =>
    dsimp only [resume] at hs
    split at hs <;> cases hs
    · exact hfailed _
    next record hreply =>
      have hof : record.OfFlow codec.registry (flow k) := reply_worksFor hworks hreply
      exact .stay ⟨flow k, hpath _ h.2.2, hof⟩
  | viewing id record =>
    cases hs
    refine .stay ⟨id, hpath id h.1, h.2, fun supervisor hsome => ?_⟩
    obtain ⟨e, he, rfl⟩ := Option.map_eq_some_iff.mp hsome
    exact hworks.running id e he
  | operating id supervisor operation =>
    cases hs
    exact operated_outcome hpath hchanges h.1 h.2
  | triggered id =>
    dsimp only [resume] at hs
    split at hs <;> cases hs
    · exact .stay trivial
    next e he => exact .stay ⟨id, hpath id h.2, hworks.running id e he⟩
  | syncing c supervisor =>
    dsimp only [resume] at hs
    split_ifs at hs
    cases hs
    obtain ⟨id, haims, howner⟩ := h
    exact .stay ⟨id, hpath id haims.2, howner⟩
  | disarming c id =>
    dsimp only [resume] at hs
    split_ifs at hs
    cases hs
    refine Outcome.aimed hpath hchanges id _ h rfl rfl ⟨Nat.lt_succ_self _, ?_⟩
    rw [Function.update_self]
    exact h
  | stopping k =>
    dsimp only [resume] at hs
    split at hs <;> cases hs
    · exact hfailed _
    next supervisor hreply =>
      have howner : owner supervisor = some (flow k) := reply_worksFor hworks hreply
      exact .stay ⟨flow k, hpath _ h.2.2, howner⟩
  | repository id lookup =>
    dsimp only [resume] at hs
    split at hs <;> cases hs
    · exact .stay trivial
    · exact .stay h
  | querying database id lookup =>
    cases hs
    refine queried_outcome h.1 fun q hq => ?_
    obtain ⟨target, hroute, htarget⟩ := h.2 q hq
    exact hreplays q target id hroute h.1 htarget
  | done => cases hs

end granted

end outcome

/-! ### Runs -/

/-- A server that has come up: nothing is under way, and the records, the
sources and the running flows are under their names. -/
structure AppState.Started (codec : Codec) (s : AppState) : Prop where
  sessions : s.sessions = []
  calls : s.registry.calls = []
  scheduled : s.scheduler.calls = []
  told : s.told = []
  owned : s.registry.Works codec.registry s.owner fun _ => ""

/-- The record, the entry in `running` and the ticker of the flow are as they
were, and its supervisor was told nothing. -/
structure Unchanged (f : String) (s₀ s : AppState) : Prop where
  record : Dict.get? s.registry.records f = Dict.get? s₀.registry.records f
  running : Dict.get? s.registry.running f = Dict.get? s₀.registry.running f
  armed : Dict.get? s.scheduler.armed f = Dict.get? s₀.scheduler.armed f
  told : ∀ e ∈ s.told, e.1 ≠ f

structure Inv (codec : Codec) (admin : AdminAccess) (s₀ : AppState) (flow : ℕ → String) (s : AppState) :
    Prop where
  works : s.registry.Works codec.registry s.owner flow
  sessions : ∀ x ∈ s.sessions, x.Sound codec admin s.owner flow s.registry.calls.length
  calls : ∀ k, k < s.registry.calls.length → ∃ x ∈ s.sessions, x.Changes codec admin (flow k)
  scheduled : ∀ c ∈ s.scheduler.calls, ∃ x ∈ s.sessions, x.Changes codec admin c.flow
  unchanged : ∀ f, (∀ x ∈ s.sessions, ¬ x.Changes codec admin f) → Unchanged f s₀ s
  rows : ∀ p q, (s.databases p).queue.find? q = (s₀.databases p).queue.find? q ∨
    ∃ row, (s₀.databases p).queue.find? q = some row ∧ row.status = .deadLetter ∧
      (s.databases p).queue.find? q = some row.requeued ∧ ∃ x ∈ s.sessions, x.Replays codec admin q

/-! The flows `orders` and `billing` share a database; the token is that of an operator of `orders`. -/

def ordersCodec : Codec where
  checksum := fun source => source
  sha256 := fun bytes => bytes
  config := fun body =>
    if body = "orders.yaml" then .ok ⟨"orders", 1, 0, some "queue.db"⟩ else .error (.configuration body)
  check := fun _ => .ok ()
  encode := fun _ => []

def ordersCalendar : FlowScheduler.Calendar := ⟨fun _ => .ok (), fun _ => true, fun _ _ _ => none⟩

def ordersAdmin : AdminAccess := ⟨true, .bearer, [⟨"ana", .operator, ["orders"], "s1"⟩]⟩

def ordersToken : Credentials := ⟨some "Bearer s1", none⟩

def billingRow : Database.NewRow :=
  ⟨"q-7", "p-7", "billing", "invoice", "success", 0, "\x7b\x7d", none, "ab", "RECORDS", none, 4, 0, []⟩

def billingLetters : Database :=
  ((((Database.empty.insertPending 10 billingRow).getD .empty).claim 11 "q-7").2).fail 12 "q-7" "timeout" 3

def ordersState : AppState where
  registry := { Registry.create false 4 with
    running := Dict.insert Dict.empty "orders" ⟨1, "orders.yaml", 0⟩
    supervisors := 1 }
  owner := Owner.make (fun _ => none) 0 "orders"
  scheduler := FlowScheduler.State.start
  databases := fun _ => billingLetters
  told := []
  sessions := []

/-- A request of the operator, with two waits. -/
def ordersRequest (route : Route) : List Action :=
  [.request ordersToken route, .resume 0 ⟨20, none, true⟩, .resume 0 ⟨21, none, true⟩]

theorem ordersState_started : ordersState.Started ordersCodec := by
  refine ⟨rfl, rfl, rfl, rfl, fun i c hc => ?_, fun id r hr => ?_, fun id e he => ?_, fun n id hn => ?_⟩
  · cases hc
  · cases hr
  · change Dict.get? (Dict.insert Dict.empty "orders" _) id = some e at he
    rw [Dict.get?_insert] at he
    split_ifs at he with hid
    · cases he
      rw [hid]
      rfl
    · cases he
  · change (if n = 0 then some "orders" else none) = some id at hn
    split_ifs at hn with hzero
    rw [hzero]
    exact Nat.one_pos

section runs
variable {codec : Codec} {calendar : FlowScheduler.Calendar} {admin : AdminAccess} {owner : Owner}
  {flow : ℕ → String} {s₀ s t : AppState} {a : Action} {x y : Session} {r : AppState × Stage}
  {ctx : AuthContext}

theorem AppState.Started.inv (h : s₀.Started codec) : Inv codec admin s₀ (fun _ => "") s₀ := by
  refine ⟨h.owned, fun x hx => ?_, fun k hk => ?_, fun c hc => ?_, fun f _ => ⟨rfl, rfl, rfl, ?_⟩,
    fun _ _ => .inl rfl⟩
  · rw [h.sessions] at hx
    cases hx
  · rw [h.calls] at hk
    cases hk
  · rw [h.scheduled] at hc
    cases hc
  · intro e he
    rw [h.told] at he
    cases he

theorem Session.Sound.mono {owner' : Owner} {flow' : ℕ → String} {n n' : ℕ}
    (h : x.Sound codec admin owner flow n) (hext : owner.Extends owner') (hn : n ≤ n')
    (hflow : ∀ k, k < n → flow' k = flow k) : x.Sound codec admin owner' flow' n' := by
  unfold Session.Sound at h ⊢
  split
  next hctx =>
    rw [hctx] at h
    exact h
  next ctx hctx =>
    rw [hctx] at h
    exact ⟨h.1, h.2.mono hext hn hflow⟩

theorem Session.Granted.sound {n : ℕ} (hgranted : x.Granted codec admin ctx)
    (hstage : x.stage.Sound codec owner flow n ctx x.route) : x.Sound codec admin owner flow n := by
  unfold Session.Sound
  rw [hgranted.1]
  exact ⟨hgranted, hstage⟩

/-- A step that touches the flows in `C` and the dead letters in `R`, each of which some
request of the new state may touch. -/
theorem Inv.next {C R : String → Prop} {flow' : ℕ → String} (h : Inv codec admin s₀ flow s)
    (hC : ∀ f, C f → ∃ z ∈ t.sessions, z.Changes codec admin f)
    (hR : ∀ q, R q → ∃ z ∈ t.sessions, z.Replays codec admin q)
    (hchanges : ∀ f, (∃ y ∈ s.sessions, y.Changes codec admin f) → ∃ z ∈ t.sessions, z.Changes codec admin f)
    (hreplays : ∀ q, (∃ y ∈ s.sessions, y.Replays codec admin q) → ∃ z ∈ t.sessions, z.Replays codec admin q)
    (hsessions : ∀ z ∈ t.sessions, z.Sound codec admin t.owner flow' t.registry.calls.length)
    (hworks : t.registry.Works codec.registry t.owner flow')
    (hcalls : ∀ k, k < t.registry.calls.length →
      (k < s.registry.calls.length ∧ flow' k = flow k) ∨ C (flow' k))
    (hscheduled : ∀ c ∈ t.scheduler.calls, (∃ d ∈ s.scheduler.calls, d.flow = c.flow) ∨ C c.flow)
    (htold : ∀ e ∈ t.told, e ∈ s.told ∨ C e.1)
    (hframe : ∀ f, ¬ C f → Dict.get? t.registry.records f = Dict.get? s.registry.records f ∧
      Dict.get? t.registry.running f = Dict.get? s.registry.running f ∧
      Dict.get? t.scheduler.armed f = Dict.get? s.scheduler.armed f)
    (hrows : ∀ p q, (t.databases p).queue.find? q = (s.databases p).queue.find? q ∨
      R q ∧ ∃ row, (s.databases p).queue.find? q = some row ∧ row.status = .deadLetter ∧
        (t.databases p).queue.find? q = some row.requeued) :
    Inv codec admin s₀ flow' t where
  works := hworks
  sessions := hsessions
  calls := by
    intro k hk
    rcases hcalls k hk with ⟨hlt, heq⟩ | hc
    · rw [heq]
      exact hchanges _ (h.calls k hlt)
    · exact hC _ hc
  scheduled := by
    intro c hc
    rcases hscheduled c hc with ⟨d, hd, heq⟩ | hc
    · rw [← heq]
      exact hchanges _ (h.scheduled d hd)
    · exact hC _ hc
  unchanged := by
    intro f hnone
    have hnot : ∀ x ∈ s.sessions, ¬ x.Changes codec admin f := by
      intro x hx hch
      obtain ⟨z, hz, hzf⟩ := hchanges f ⟨x, hx, hch⟩
      exact hnone z hz hzf
    have hnc : ¬ C f := by
      intro hc
      obtain ⟨z, hz, hzf⟩ := hC f hc
      exact hnone z hz hzf
    obtain ⟨hrecord, hrunning, harmed⟩ := hframe f hnc
    have hold := h.unchanged f hnot
    refine ⟨hrecord.trans hold.record, hrunning.trans hold.running, harmed.trans hold.armed, fun e he => ?_⟩
    rcases htold e he with he | hc
    · exact hold.told e he
    · exact fun heq => hnc (heq ▸ hc)
  rows := by
    intro p q
    rcases h.rows p q with hsame | ⟨row, hrow, hdead, hnow, hby⟩
    · rcases hrows p q with hkeep | ⟨hr, row, hrow, hdead, hnow⟩
      · exact .inl (hkeep.trans hsame)
      · exact .inr ⟨row, hsame ▸ hrow, hdead, hnow, hR q hr⟩
    · refine .inr ⟨row, hrow, hdead, ?_, hreplays q hby⟩
      rcases hrows p q with hkeep | ⟨-, row', hrow', hdead', -⟩
      · exact hkeep.trans hnow
      · -- the row is `PENDING` already
        rw [hnow] at hrow'
        cases hrow'
        cases hdead'

/-- The session `x` comes in, new or for one that has moved on. -/
structure Enters (codec : Codec) (admin : AdminAccess) (x : Session) (s : AppState)
    (sessions : List Session) : Prop where
  changes : ∀ f, (∃ y ∈ s.sessions, y.Changes codec admin f) → ∃ z ∈ sessions, z.Changes codec admin f
  replays : ∀ q, (∃ y ∈ s.sessions, y.Replays codec admin q) → ∃ z ∈ sessions, z.Replays codec admin q
  new : x ∈ sessions
  old : ∀ z ∈ sessions, z = x ∨ z ∈ s.sessions

theorem enters_append (x : Session) (s : AppState) : Enters codec admin x s (s.sessions ++ [x]) where
  changes := fun f ⟨y, hy, hch⟩ => ⟨y, List.mem_append_left _ hy, hch⟩
  replays := fun q ⟨y, hy, hr⟩ => ⟨y, List.mem_append_left _ hy, hr⟩
  new := by simp
  old := by
    intro z hz
    rcases List.mem_append.mp hz with hz | hz
    · exact .inr hz
    · exact .inl (List.mem_singleton.mp hz)

theorem enters_set {j : ℕ} {stage : Stage} (hy : s.sessions[j]? = some y) :
    Enters codec admin { y with stage := stage } s (s.sessions.set j { y with stage := stage }) := by
  have hlt := (List.getElem?_eq_some_iff.mp hy).1
  have hstay : ∀ z ∈ s.sessions, z = y ∨ z ∈ s.sessions.set j { y with stage := stage } := by
    intro z hz
    obtain ⟨k, hk⟩ := List.mem_iff_getElem?.mp hz
    by_cases hkj : j = k
    · subst hkj
      rw [hy] at hk
      exact .inl (Option.some.inj hk).symm
    · refine .inr (List.mem_of_getElem? (i := k) ?_)
      rw [List.getElem?_set_ne hkj]
      exact hk
  have hnew : { y with stage := stage } ∈ s.sessions.set j { y with stage := stage } :=
    List.mem_set hlt _
  constructor
  · rintro f ⟨z, hz, hch⟩
    rcases hstay z hz with rfl | hz
    · exact ⟨_, hnew, hch⟩
    · exact ⟨z, hz, hch⟩
  · rintro q ⟨z, hz, hr⟩
    rcases hstay z hz with rfl | hz
    · exact ⟨_, hnew, hr⟩
    · exact ⟨z, hz, hr⟩
  · exact hnew
  · intro z hz
    exact (List.mem_or_eq_of_mem_set hz).symm

/-- Nothing but the session changes. -/
theorem Inv.enter {sessions : List Session} (h : Inv codec admin s₀ flow s)
    (henters : Enters codec admin x s sessions)
    (hsound : ∀ z ∈ sessions, z.Sound codec admin s.owner flow s.registry.calls.length) :
    Inv codec admin s₀ flow { s with sessions := sessions } :=
  h.next (C := fun _ => False) (R := fun _ => False) (fun _ hf => hf.elim) (fun _ hf => hf.elim)
    henters.changes henters.replays hsound h.works (fun _ hk => .inl ⟨hk, rfl⟩)
    (fun c hc => .inl ⟨c, hc, rfl⟩) (fun _ he => .inl he) (fun _ _ => ⟨rfl, rfl, rfl⟩)
    (fun _ _ => .inl rfl)

/-- The state after a handler has gone on to its next await. -/
theorem Inv.outcome {u : AppState} {sessions : List Session} (h : Inv codec admin s₀ flow s)
    (hgranted : x.Granted codec admin ctx) (henters : Enters codec admin x s sessions)
    (hout : Outcome codec (x.Changes codec admin) (x.Replays codec admin) s.owner flow ctx x.route s
      (u, x.stage)) :
    ∃ flow', Inv codec admin s₀ flow' { u with sessions := sessions } := by
  have hsound : ∀ flow' n', s.registry.calls.length ≤ n' →
      (∀ k, k < s.registry.calls.length → flow' k = flow k) →
      x.stage.Sound codec s.owner flow' n' ctx x.route →
      ∀ z ∈ sessions, z.Sound codec admin s.owner flow' n' := by
    intro flow' n' hn hflow hstage z hz
    rcases henters.old z hz with rfl | hz
    · exact hgranted.sound hstage
    · exact (h.sessions z hz).mono (.refl s.owner) hn hflow
  have hnew : ∀ f, x.Changes codec admin f → ∃ z ∈ sessions, z.Changes codec admin f :=
    fun f hf => ⟨x, henters.new, hf⟩
  have hlen := s.registry.calls.length.le_refl
  generalize hstage : x.stage = stage at hout
  cases hout with
  | stay hst => exact ⟨flow, h.enter henters (hsound flow _ hlen (fun _ _ => rfl) (hstage ▸ hst))⟩
  | @call request stage id first hch haccept hfirst hst =>
    have hregistry : (s.call request).registry =
      { s.registry with calls := s.registry.calls ++ [⟨first, none⟩] } := haccept
    have hlength : (s.call request).registry.calls.length = s.registry.calls.length + 1 := by
      rw [hregistry, List.length_append, List.length_singleton]
    have hflow : ∀ k, k < s.registry.calls.length →
        Function.update flow s.registry.calls.length id k = flow k :=
      fun k hk => Function.update_of_ne hk.ne _ _
    refine ⟨Function.update flow s.registry.calls.length id, h.next (C := x.Changes codec admin)
      (R := fun _ => False) hnew (fun _ hf => hf.elim) henters.changes henters.replays ?_ ?_
      (fun k hk => ?_) (fun c hc => .inl ⟨c, hc, rfl⟩)
      (fun e he => .inl he) (fun f _ => ?_) (fun _ _ => .inl rfl)⟩
    · rw [show ({ s.call request with sessions := sessions } : AppState).registry.calls.length = _
        from hlength]
      exact hsound _ _ (Nat.le_succ _) hflow (hstage ▸ hst)
    · show Registry.Works _ _ _ (s.call request).registry
      rw [hregistry]
      exact h.works.accept hfirst
    · rw [show ({ s.call request with sessions := sessions } : AppState).registry.calls.length = _
        from hlength] at hk
      rcases Nat.lt_succ_iff_lt_or_eq.mp hk with hlt | rfl
      · exact .inl ⟨hlt, hflow k hlt⟩
      · rw [Function.update_self]
        exact .inr hch
    · show Dict.get? (s.call request).registry.records f = _ ∧
        Dict.get? (s.call request).registry.running f = _ ∧ _
      rw [hregistry]
      exact ⟨rfl, rfl, rfl⟩
  | @schedule call stage hch hst =>
    refine ⟨flow, h.next (C := x.Changes codec admin) (R := fun _ => False) hnew (fun _ hf => hf.elim)
      henters.changes henters.replays (hsound flow _ hlen (fun _ _ => rfl) (hstage ▸ hst)) h.works
      (fun k hk => .inl ⟨hk, rfl⟩) (fun c hc => ?_) (fun e he => .inl he) (fun _ _ => ⟨rfl, rfl, rfl⟩)
      (fun _ _ => .inl rfl)⟩
    rcases List.mem_append.mp hc with hc | hc
    · exact .inl ⟨c, hc, rfl⟩
    · rw [List.mem_singleton.mp hc]
      exact .inr hch
  | @tell id supervisor operation stage hch hst =>
    refine ⟨flow, h.next (C := x.Changes codec admin) (R := fun _ => False) hnew (fun _ hf => hf.elim)
      henters.changes henters.replays (hsound flow _ hlen (fun _ _ => rfl) (hstage ▸ hst)) h.works
      (fun k hk => .inl ⟨hk, rfl⟩) (fun c hc => .inl ⟨c, hc, rfl⟩) (fun e he => ?_)
      (fun _ _ => ⟨rfl, rfl, rfl⟩) (fun _ _ => .inl rfl)⟩
    rcases List.mem_append.mp he with he | he
    · exact .inl he
    · rw [List.mem_singleton.mp he]
      exact .inr hch
  | @requeue database queueId now stage hr hst =>
    refine ⟨flow, h.next (C := fun _ => False) (R := x.Replays codec admin) (fun _ hf => hf.elim)
      (fun q hq => ⟨x, henters.new, hq⟩) henters.changes henters.replays
      (hsound flow _ hlen (fun _ _ => rfl) (hstage ▸ hst)) h.works
      (fun k hk => .inl ⟨hk, rfl⟩) (fun c hc => .inl ⟨c, hc, rfl⟩) (fun e he => .inl he)
      (fun _ _ => ⟨rfl, rfl, rfl⟩) (fun p q => ?_)⟩
    by_cases hp : p = database
    · subst hp
      show (Function.update s.databases p _ p).queue.find? q = _ ∨ _ ∧ ∃ row, _ ∧ _ ∧
        (Function.update s.databases p _ p).queue.find? q = _
      rw [Function.update_self, Database.requeueDeadLetter_find?]
      split_ifs with hq
      · obtain ⟨rfl, hstatus⟩ := hq
        obtain ⟨row, hrow, hdead⟩ := Option.map_eq_some_iff.mp hstatus
        exact .inr ⟨hr, row, hrow, hdead, by rw [hrow]; rfl⟩
      · exact .inl rfl
    · refine .inl ?_
      show (Function.update s.databases database _ p).queue.find? q = _
      rw [Function.update_of_ne hp]

theorem Inv.step (h : Inv codec admin s₀ flow s) (hs : step codec calendar admin s a = some t) :
    ∃ flow', Inv codec admin s₀ flow' t := by
  cases a with
  | request c route =>
    unfold Api.step at hs
    dsimp only at hs
    split at hs
    next refusal hrefused =>
      cases hs
      -- the caller is told off; nothing else happens
      have henters : Enters codec admin ⟨none, route, .done (refused refusal)⟩ s _ := enters_append _ s
      refine ⟨flow, h.enter henters fun z hz => ?_⟩
      rcases henters.old z hz with rfl | hz
      · exact ⟨refusal, rfl⟩
      · exact h.sessions z hz
    next ctx hctx =>
      cases hs
      obtain ⟨-, hpath⟩ := authorize_ok hctx
      have hgranted : Session.Granted codec admin ⟨some ctx, route, (handle codec s ctx route).2⟩ ctx :=
        ⟨rfl, c, hctx⟩
      have hout : Outcome codec (Session.Changes codec admin ⟨some ctx, route, (handle codec s ctx route).2⟩)
          (Session.Replays codec admin ⟨some ctx, route, (handle codec s ctx route).2⟩) s.owner flow ctx route s
          (handle codec s ctx route) :=
        handle_outcome hpath (fun g f hg hw => ⟨ctx, g, hgranted, hg, hw⟩) h.works
      obtain ⟨flow', hinv⟩ := h.outcome (u := (handle codec s ctx route).1) hgranted (enters_append _ s) hout
      refine ⟨flow', ?_⟩
      unfold AppState.enter
      rw [hout.sessions]
      exact hinv
  | resume j answer =>
    obtain ⟨y, hy, hs⟩ := Option.bind_eq_some_iff.mp hs
    obtain ⟨r, hr, rfl⟩ := Option.map_eq_some_iff.mp hs
    have hsound := h.sessions y (List.mem_of_getElem? hy)
    unfold Session.Sound at hsound
    split at hsound
    · -- a request that was turned away has its response
      obtain ⟨refusal, hdone⟩ := hsound
      rw [hdone] at hr
      cases hr
    next ctx hctx =>
      obtain ⟨hgranted, hstage⟩ := hsound
      have hgranted' : Session.Granted codec admin { y with stage := r.2 } ctx := hgranted
      obtain ⟨-, c, hc⟩ := hgranted
      have hout : Outcome codec (Session.Changes codec admin { y with stage := r.2 })
          (Session.Replays codec admin { y with stage := r.2 }) s.owner flow ctx y.route s r :=
        resume_outcome (authorize_ok hc).2 (fun g f hg hw => ⟨ctx, g, hgranted', hg, hw⟩) h.works
          (fun q target g hroute hg htarget => ⟨ctx, target, g, hgranted', hroute, hg, htarget⟩) hstage hr
      obtain ⟨flow', hinv⟩ := h.outcome (u := r.1) hgranted' (enters_set hy) hout
      exact ⟨flow', hinv⟩
  | registry i input =>
    obtain ⟨c, hc, hs⟩ := Option.bind_eq_some_iff.mp hs
    obtain ⟨u, hu, rfl⟩ := Option.map_eq_some_iff.mp hs
    obtain ⟨owner', hmakes, hworks, honly⟩ := h.works.advance hc hu
    have howner : (if u.supervisors = s.registry.supervisors then s.owner
        else s.owner.make s.registry.supervisors c.stage.maker) = owner' := by
      rcases hmakes with ⟨rfl, hsup⟩ | ⟨rfl, hsup⟩
      · rw [if_pos hsup]
      · rcases Registry.advance_supervisors hu (h.works.calls i c hc) with hsame | hmaker
        · omega
        · rw [if_neg (by omega), hmaker]
    have hext := (h.works.extends hmakes).1
    subst howner
    have hlen := Registry.advance_length hu
    have hlt := (List.getElem?_eq_some_iff.mp hc).1
    refine ⟨flow, h.next (C := fun f => f = flow i) (R := fun _ => False) (fun f hf => ?_)
      (fun _ hf => hf.elim) (fun _ hf => hf) (fun _ hf => hf) (fun z hz => ?_) hworks (fun k hk => ?_)
      (fun c hc => .inl ⟨c, hc, rfl⟩) (fun e he => .inl he) (fun f hf => ?_) (fun _ _ => .inl rfl)⟩
    · rw [hf]
      exact h.calls i hlt
    · exact (h.sessions z hz).mono hext hlen.ge fun _ _ => rfl
    · exact .inl ⟨hlen ▸ hk, rfl⟩
    · exact ⟨honly.records f hf, honly.running f hf, rfl⟩
  | finish supervisor =>
    cases hs
    exact ⟨flow, h.next (C := fun _ => False) (R := fun _ => False) (fun _ hf => hf.elim)
      (fun _ hf => hf.elim) (fun _ hf => hf) (fun _ hf => hf) h.sessions
      ⟨h.works.calls, h.works.records, h.works.running, h.works.known⟩ (fun k hk => .inl ⟨hk, rfl⟩)
      (fun c hc => .inl ⟨c, hc, rfl⟩) (fun e he => .inl he) (fun _ _ => ⟨rfl, rfl, rfl⟩)
      (fun _ _ => .inl rfl)⟩
  | scheduler a =>
    obtain ⟨u, hu, rfl, hnew⟩ : ∃ u, FlowScheduler.step calendar s.scheduler a = some u ∧
        t = { s with scheduler := u } ∧ ∀ flow, a ≠ .arm flow ∧ a ≠ .disarm flow := by
      cases a with
      | arm | disarm => cases hs
      | look | lock | fire | tick | cancel =>
        obtain ⟨u, hu, rfl⟩ := Option.map_eq_some_iff.mp hs
        exact ⟨u, hu, rfl, fun _ => ⟨nofun, nofun⟩⟩
    have honly := FlowScheduler.step_only hu hnew
    refine ⟨flow, h.next (C := fun f => ∃ c ∈ s.scheduler.calls, c.flow = f) (R := fun _ => False)
      (fun f hf => ?_) (fun _ hf => hf.elim) (fun _ hf => hf) (fun _ hf => hf) h.sessions h.works
      (fun k hk => .inl ⟨hk, rfl⟩) (fun c hc => .inl (honly.calls c hc)) (fun e he => .inl he)
      (fun f hf => ⟨rfl, rfl, honly.armed f fun c hc heq => hf ⟨c, hc, heq⟩⟩) (fun _ _ => .inl rfl)⟩
    obtain ⟨c, hc, rfl⟩ := hf
    exact h.scheduled c hc

theorem reachable_inv (hstart : s₀.Started codec) (h : (api codec calendar admin).Reachable s₀ s) :
    ∃ flow, Inv codec admin s₀ flow s := by
  refine h.invariant (I := fun s => ∃ flow, Inv codec admin s₀ flow s) ⟨_, hstart.inv⟩ ?_
  rintro s a t ⟨flow, hinv⟩ - hs
  exact hinv.step hs

/-- In every run, whatever happened to the record, the entry in `running`, the ticker or the
supervisor of a flow goes back to a request authorized for that flow; the row of a packet is
as it was, or it was a dead letter that an authorized request has replayed. -/
theorem changes_authorized (codec : Codec) (calendar : FlowScheduler.Calendar) (admin : AdminAccess)
    (hstart : s₀.Started codec) (h : (api codec calendar admin).Reachable s₀ s) :
    (∀ f, (∀ x ∈ s.sessions, ¬ x.Changes codec admin f) → Unchanged f s₀ s) ∧
    ∀ p q, (s.databases p).queue.find? q = (s₀.databases p).queue.find? q ∨
      ∃ row, (s₀.databases p).queue.find? q = some row ∧ row.status = .deadLetter ∧
        (s.databases p).queue.find? q = some row.requeued ∧
        ∃ x ∈ s.sessions, x.Replays codec admin q := by
  obtain ⟨flow, hinv⟩ := reachable_inv hstart h
  exact ⟨hinv.unchanged, hinv.rows⟩

/-- The operator of `orders` replays the dead letter of `billing`. -/
theorem changes_authorized_replay : ∃ s, (api ordersCodec ordersCalendar ordersAdmin).exec ordersState
    (ordersRequest (.replayDeadLetter "q-7" none)) = some s ∧
    (s.databases "queue.db").statusOf "q-7" = some .pending ∧
    ((∀ f, (∀ x ∈ s.sessions, ¬ x.Changes ordersCodec ordersAdmin f) → Unchanged f ordersState s) ∧
    ∀ p q, (s.databases p).queue.find? q = (ordersState.databases p).queue.find? q ∨
      ∃ row, (ordersState.databases p).queue.find? q = some row ∧ row.status = .deadLetter ∧
        (s.databases p).queue.find? q = some row.requeued ∧
        ∃ x ∈ s.sessions, x.Replays ordersCodec ordersAdmin q) :=
  ⟨_, rfl, by decide, changes_authorized ordersCodec ordersCalendar ordersAdmin ordersState_started
    (.of_exec (ordersRequest (.replayDeadLetter "q-7" none)) rfl fun _ _ _ => trivial)⟩

/-- Every response shows only flows that its caller is allowed: their records, sources,
supervisors, rows and events. -/
theorem responses_within (codec : Codec) (calendar : FlowScheduler.Calendar) (admin : AdminAccess)
    (hstart : s₀.Started codec) (h : (api codec calendar admin).Reachable s₀ s) :
    ∀ x ∈ s.sessions, ∀ response, x.stage = .done response →
      match x.ctx with
      | none => ∃ refusal, response = refused refusal
      | some ctx => response.body.Within codec s.owner ctx := by
  obtain ⟨flow, hinv⟩ := reachable_inv hstart h
  intro x hx response hdone
  have hsound := hinv.sessions x hx
  unfold Session.Sound at hsound
  split
  next hctx =>
    rw [hctx] at hsound
    obtain ⟨refusal, hrefused⟩ := hsound
    rw [hdone] at hrefused
    cases hrefused
    exact ⟨refusal, rfl⟩
  next ctx hctx =>
    rw [hctx] at hsound
    obtain ⟨-, hstage⟩ := hsound
    rw [hdone] at hstage
    exact hstage

/-- The operator of `orders` sees its own dead letters: none. -/
theorem responses_within_deadLetters : ∃ s, (api ordersCodec ordersCalendar ordersAdmin).exec ordersState
    (ordersRequest (.deadLetters (some "orders") none)) = some s ∧
    (s.sessions.map fun x => x.stage matches .done ⟨200, .deadLetters []⟩) = [true] ∧
    ∀ x ∈ s.sessions, ∀ response, x.stage = .done response →
      match x.ctx with
      | none => ∃ refusal, response = refused refusal
      | some ctx => response.body.Within ordersCodec s.owner ctx :=
  ⟨_, rfl, by decide, responses_within ordersCodec ordersCalendar ordersAdmin ordersState_started
    (.of_exec (ordersRequest (.deadLetters (some "orders") none)) rfl fun _ _ _ => trivial)⟩

/-- The newest session waits where its handler has come to. -/
theorem resume_last (ctx : Option AuthContext) (route : Route) (stage : Stage) (b : Answer) :
    step codec calendar admin (s.enter ctx route stage) (.resume s.sessions.length b) =
      (resume codec (s.enter ctx route stage) b stage).map fun r =>
        { r.1 with sessions := s.sessions ++ [⟨ctx, route, r.2⟩] } := by
  have hlast : (s.sessions ++ [⟨ctx, route, stage⟩])[s.sessions.length]? = some ⟨ctx, route, stage⟩ := by
    simp
  unfold step AppState.enter
  dsimp only
  rw [hlast, Option.bind_some]
  simp

variable {c : Credentials} {q g p : String} {target : Option String} {b b' : Answer}

/-- A replay in the name of the flow `g`, which runs with the database `p`: the dead letter is
looked up there by its id alone. -/
theorem replay_run (hctx : authorize codec admin c (.replayDeadLetter q target) = .ok ctx)
    (htarget : target.or (soleRunningId s) = some g) (hallow : ctx.allowsProject g = true)
    (hrepository : repository? codec s g = some p) (hfault : b'.fault = none) :
    ∃ t, (api codec calendar admin).exec s [.request c (.replayDeadLetter q target),
        .resume s.sessions.length b, .resume s.sessions.length b'] = some t ∧
      t.databases = Function.update s.databases p ((s.databases p).requeueDeadLetter b'.now q).2 := by
  have hrequest : step codec calendar admin s (.request c (.replayDeadLetter q target)) =
      some (s.enter ctx (.replayDeadLetter q target) (.repository g (.replay q))) := by
    unfold step
    dsimp only [handle, lookupFlow]
    rw [hctx, htarget]
    dsimp only
    rw [if_pos hallow]
  have hfirst : step codec calendar admin (s.enter ctx (.replayDeadLetter q target) (.repository g (.replay q)))
      (.resume s.sessions.length b) =
      some (s.enter ctx (.replayDeadLetter q target) (.querying p g (.replay q))) := by
    rw [resume_last]
    dsimp only [resume]
    rw [show repository? codec (s.enter _ _ _) g = _ from hrepository]
    rfl
  obtain ⟨t, hsecond, hdb⟩ : ∃ t, step codec calendar admin
      (s.enter ctx (.replayDeadLetter q target) (.querying p g (.replay q)))
      (.resume s.sessions.length b') = some t ∧
      t.databases = Function.update s.databases p ((s.databases p).requeueDeadLetter b'.now q).2 := by
    rw [resume_last]
    dsimp only [resume, queried]
    rw [hfault]
    exact ⟨_, rfl, rfl⟩
  refine ⟨t, ?_, hdb⟩
  simp only [Machine.exec, api, hrequest, hfirst, hsecond, Option.bind_some]

/-- A request for a replay changes a row exactly if its caller is allowed the flow it names, that
flow runs with a repository, and the row is a dead letter there, whichever flow it belongs to. -/
theorem replay_iff (codec : Codec) (calendar : FlowScheduler.Calendar) (admin : AdminAccess)
    (s : AppState) (c : Credentials) (q : String) (target : Option String) (b b' : Answer)
    (hfault : b'.fault = none) :
    (∃ t, (api codec calendar admin).exec s [.request c (.replayDeadLetter q target),
        .resume s.sessions.length b, .resume s.sessions.length b'] = some t ∧
      ∃ p q', (t.databases p).queue.find? q' ≠ (s.databases p).queue.find? q') ↔
    ∃ ctx g p, authorize codec admin c (.replayDeadLetter q target) = .ok ctx ∧
      target.or (soleRunningId s) = some g ∧ ctx.allowsProject g = true ∧
      repository? codec s g = some p ∧ (s.databases p).statusOf q = some .deadLetter := by
  constructor
  · rintro ⟨t, hexec, p, q', hne⟩
    -- a session that has its response does not go on
    have hdone : ∀ (ctx : Option AuthContext) (route : Route) (response : Response) (b : Answer),
        step codec calendar admin (s.enter ctx route (.done response)) (.resume s.sessions.length b) = none :=
      fun _ _ _ _ => resume_last _ _ _ _
    obtain ⟨u, hrequest, hexec⟩ := Option.bind_eq_some_iff.mp hexec
    obtain ⟨v, hfirst, hexec⟩ := Option.bind_eq_some_iff.mp hexec
    obtain ⟨w, hsecond, hexec⟩ := Option.bind_eq_some_iff.mp hexec
    cases hexec
    dsimp only [api] at hrequest hfirst hsecond
    unfold step at hrequest
    dsimp only [handle, lookupFlow] at hrequest
    split at hrequest
    · cases hrequest
      rw [hdone] at hfirst
      cases hfirst
    next ctx hctx =>
      cases htarget : target.or (soleRunningId s) with
      | none =>
        rw [htarget] at hrequest
        cases hrequest
        exact absurd (hfirst.symm.trans (hdone _ _ _ _)) (by simp)
      | some g =>
        rw [htarget] at hrequest
        dsimp only at hrequest
        split_ifs at hrequest with hallow
        · cases hrequest
          have hsame : repository? codec (s.enter ctx (.replayDeadLetter q target) (.repository g (.replay q))) g =
            repository? codec s g := rfl
          rw [resume_last] at hfirst
          dsimp only [resume] at hfirst
          rw [hsame] at hfirst
          cases hrepository : repository? codec s g with
          | none =>
            rw [hrepository] at hfirst
            cases hfirst
            exact absurd (hsecond.symm.trans (hdone _ _ _ _)) (by simp)
          | some p₀ =>
            refine ⟨ctx, g, p₀, hctx, rfl, hallow, hrepository, ?_⟩
            rw [hrepository] at hfirst
            cases hfirst
            by_contra hdead
            have hanswer := (resume_last (s := s) _ _ (.querying p₀ g (.replay q)) b').symm.trans hsecond
            dsimp only [resume, queried] at hanswer
            rw [hfault] at hanswer
            cases hanswer
            refine hne ?_
            show (Function.update s.databases p₀ _ p).queue.find? q' = _
            by_cases hp : p = p₀
            · subst hp
              rw [Function.update_self]
              exact (Database.requeueDeadLetter_find? _ _ _ _).trans (if_neg fun hboth => hdead hboth.2)
            · rw [Function.update_of_ne hp]
        · cases hrequest
          exact absurd (hfirst.symm.trans (hdone _ _ _ _)) (by simp)
  · rintro ⟨ctx, g, p, hctx, htarget, hallow, hrepository, hdead⟩
    obtain ⟨t, hexec, hdb⟩ := replay_run hctx htarget hallow hrepository hfault
    refine ⟨t, hexec, p, q, ?_⟩
    obtain ⟨row, hrow, hstatus⟩ := Option.map_eq_some_iff.mp hdead
    rw [hdb, Function.update_self, Database.requeueDeadLetter_find?, if_pos ⟨rfl, hdead⟩, hrow]
    intro heq
    have hpending := congrArg Row.status (Option.some.inj heq)
    rw [hstatus] at hpending
    cases hpending

/-- The dead letter of `billing` can be replayed in the name of `orders`. -/
theorem replay_iff_billing : ∃ t, (api ordersCodec ordersCalendar ordersAdmin).exec ordersState
    (ordersRequest (.replayDeadLetter "q-7" (some "orders"))) = some t ∧
    ∃ p q', (t.databases p).queue.find? q' ≠ (ordersState.databases p).queue.find? q' :=
  (replay_iff ordersCodec ordersCalendar ordersAdmin ordersState ordersToken "q-7" (some "orders")
    ⟨20, none, true⟩ ⟨21, none, true⟩ rfl).mpr
    ⟨⟨"ana", .operator, ["orders"]⟩, "orders", "queue.db", rfl, rfl, rfl, rfl, by decide⟩

end runs

end Jaiba.Server.Api
