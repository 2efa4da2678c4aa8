import Jaiba.Lib.Dict
import Jaiba.Lib.Machine
import Jaiba.Server.SqlBuilder

/-!
# The calendar of the flows (`scheduler.rs`)

`arm` takes the handle of the previous ticker out of the map and aborts it, waits for a
catch-up fire, spawns the new ticker and then records its handle. Calls give way to one another at
their awaits; a handle that is replaced in the map is dropped, and its ticker goes on.
-/

namespace Jaiba.Server.FlowScheduler
open Jaiba.Lib

inductive OverlapPolicy where
  | skip | queue | replace
  deriving Repr, DecidableEq

inductive CatchUpPolicy where
  | none | one
  deriving Repr, DecidableEq

inductive ScheduleTrigger where
  | interval (everySeconds : ℕ)
  | cron (expression : String)
  | webhook
  deriving Repr, DecidableEq

structure ScheduleConfig where
  enabled : Bool
  trigger : ScheduleTrigger
  timezone : Option String
  overlap : OverlapPolicy
  catchUp : CatchUpPolicy
  deriving Repr, DecidableEq

/-- The crates `cron` and `chrono_tz`. -/
structure Calendar where
  /-- the parse of an expression -/
  schedule : List Char → Except String Unit
  /-- whether a time zone is known -/
  zone : List Char → Bool
  /-- `delay_until_next_cron` at a time in seconds, in milliseconds -/
  delay : String → String → ℕ → Option ℕ

section
variable (calendar : Calendar)

def ScheduleConfig.validate (c : ScheduleConfig) : Except String Unit :=
  if !c.enabled then .ok ()
  else
    match c.trigger with
    | .interval everySeconds =>
      if everySeconds = 0 then
        .error "schedule.interval.every_seconds must be greater than zero"
      else .ok ()
    | .cron expression =>
      let trimmed := SqlBuilder.trim expression.toList
      if trimmed.isEmpty then .error "schedule.cron.expression cannot be empty"
      else
        match calendar.schedule trimmed with
        | .error error => .error ("invalid cron expression: " ++ error)
        | .ok _ =>
          let zone := ((c.timezone.map fun z => SqlBuilder.trim z.toList).filter
            fun z => !z.isEmpty).getD "UTC".toList
          if calendar.zone zone then .ok ()
          else .error ("unknown timezone '" ++ String.ofList zone ++ "'")
    | .webhook => .ok ()

def ScheduleConfig.delay (c : ScheduleConfig) (expression : String) (now : ℕ) : Option ℕ :=
  calendar.delay expression (c.timezone.getD "UTC") now

/-- `should_catch_up`, with the last fire on record. -/
def shouldCatchUp (c : ScheduleConfig) (lastFireAt : Option ℕ) (now : ℕ) : Bool :=
  match lastFireAt with
  | none => false
  | some last =>
    match c.trigger with
    | .interval everySeconds => everySeconds ≤ now - last
    | .cron expression =>
      (c.delay calendar expression now).elim false (fun delay => delay < 2000) || 60 ≤ now - last
    | .webhook => false

end

/-- Where `fire` waits. -/
inductive Fire where
  | lookup | waitUntilIdle | stop | start
  deriving Repr, DecidableEq

/-- What a wait of `fire` or of a ticker comes back with: the flow is loaded, its supervisor is
idle, the wait succeeded. -/
structure Answer where
  loaded : Bool
  idle : Bool
  ok : Bool
  deriving Repr, DecidableEq

/-- `fire` up to its next wait. -/
def Fire.next (overlap : OverlapPolicy) (a : Answer) : Fire → Option Fire
  | .lookup =>
    if !a.loaded then none
    else
      match overlap with
      | .skip => some .start
      | .queue => some .waitUntilIdle
      | .replace => some (if a.idle then .start else .stop)
  | .waitUntilIdle | .stop => if a.ok then some .start else none
  | .start => none

inductive TickerStage where
  /-- the top of its loop -/
  | loop
  | sleeping
  /-- asks the registry for the flow -/
  | checking
  | firing (f : Fire)
  | ended
  | aborted
  deriving Repr, DecidableEq

def TickerStage.alive : TickerStage → Bool
  | .ended | .aborted => false
  | _ => true

structure Ticker where
  flow : String
  schedule : ScheduleConfig
  stage : TickerStage
  deriving Repr, DecidableEq

/-- The task of a ticker up to its next wait; `none` where it has ended. -/
def Ticker.next (calendar : Calendar) (t : Ticker) (a : Answer) (now : ℕ) : Option TickerStage :=
  match t.stage with
  | .loop =>
    match t.schedule.trigger with
    | .cron expression =>
      some (if (t.schedule.delay calendar expression now).isSome then .sleeping else .ended)
    | _ => some .sleeping
  | .sleeping => some .checking
  | .checking => some (if a.loaded then .firing .lookup else .ended)
  | .firing f => some (((f.next t.schedule.overlap a).map .firing).getD .loop)
  | .ended | .aborted => none

inductive CallStage where
  /-- asks the registry for the supervisor of the flow -/
  | lookup
  /-- waits for the map to take the handle out; `none` where that is all -/
  | disarm (schedule : Option ScheduleConfig)
  | catchUp (schedule : ScheduleConfig) (f : Fire)
  /-- waits for the map to record the ticker it has spawned -/
  | record (k : ℕ)
  | done
  deriving Repr, DecidableEq

/-- Between the removal of the previous handle and the record of the new one. -/
def CallStage.arming : CallStage → Bool
  | .catchUp _ _ | .record _ => true
  | _ => false

/-- A call of `arm` or of `disarm`. -/
structure Call where
  flow : String
  arms : Bool
  stage : CallStage
  deriving Repr, DecidableEq

structure State where
  armed : Dict String ℕ
  tickers : List Ticker
  calls : List Call
  /-- the tickers in the order in which they fired, with their flows -/
  fired : List (ℕ × String)

def State.start : State := ⟨Dict.empty, [], [], []⟩

inductive Action where
  | arm (flow : String)
  | disarm (flow : String)
  /-- the registry answers an `arm` with the schedule of the flow, if that is loaded -/
  | look (i : ℕ) (found : Option (Option ScheduleConfig))
  /-- a call gets the lock of the map -/
  | lock (i : ℕ) (lastFireAt : Option ℕ) (now : ℕ)
  | fire (i : ℕ) (a : Answer)
  | tick (k : ℕ) (a : Answer) (now : ℕ)
  /-- the future of a call is dropped -/
  | cancel (i : ℕ)
  deriving Repr, DecidableEq

namespace State

variable (s : State)

def setStage (i : ℕ) (c : Call) (stage : CallStage) : State :=
  { s with calls := s.calls.set i { c with stage := stage } }

/-- `armed.remove` and `abort`. -/
def remove (flow : String) : State :=
  match Dict.get? s.armed flow with
  | none => s
  | some k =>
    { s with
      armed := Dict.erase s.armed flow
      tickers := s.tickers.modify k fun t => { t with stage := .aborted } }

/-- The end of `arm`: the trigger decides whether a ticker is spawned. -/
def launch (i : ℕ) (c : Call) (schedule : ScheduleConfig) : State :=
  match schedule.trigger with
  | .webhook => s.setStage i c .done
  | _ =>
    { s.setStage i c (.record s.tickers.length) with
      tickers := s.tickers ++ [⟨c.flow, schedule, .loop⟩] }

/-- `arm` up to its first `disarm`. -/
def look (calendar : Calendar) (i : ℕ) (c : Call) (found : Option (Option ScheduleConfig)) :
    Option State :=
  match c.stage, found with
  | .lookup, none => some (s.setStage i c .done)
  | .lookup, some none => some (s.setStage i c (.disarm none))
  | .lookup, some (some schedule) =>
    if !schedule.enabled then some (s.setStage i c (.disarm none))
    else
      match schedule.validate calendar with
      | .error _ => some (s.setStage i c .done)
      | .ok _ => some (s.setStage i c (.disarm (some schedule)))
  | _, _ => none

/-- A call that has the lock of the map, up to its next wait. -/
def lock (calendar : Calendar) (i : ℕ) (c : Call) (lastFireAt : Option ℕ) (now : ℕ) :
    Option State :=
  match c.stage with
  | .disarm none => some ((s.remove c.flow).setStage i c .done)
  | .disarm (some schedule) =>
    if schedule.catchUp = .one && shouldCatchUp calendar schedule lastFireAt now then
      some ((s.remove c.flow).setStage i c (.catchUp schedule .lookup))
    else some ((s.remove c.flow).launch i c schedule)
  | .record k => some { s.setStage i c .done with armed := Dict.insert s.armed c.flow k }
  | _ => none

def fire (i : ℕ) (c : Call) (a : Answer) : Option State :=
  match c.stage with
  | .catchUp schedule f =>
    match f.next schedule.overlap a with
    | some f => some (s.setStage i c (.catchUp schedule f))
    | none => some (s.launch i c schedule)
  | _ => none

def tick (calendar : Calendar) (k : ℕ) (t : Ticker) (a : Answer) (now : ℕ) : Option State :=
  (t.next calendar a now).map fun stage =>
    { s with
      tickers := s.tickers.set k { t with stage := stage }
      fired := s.fired ++ if stage = .firing .lookup then [(k, t.flow)] else [] }

def cancel (i : ℕ) (c : Call) : Option State :=
  if c.stage = .done then none else some (s.setStage i c .done)

end State

def step (calendar : Calendar) (s : State) : Action → Option State
  | .arm flow => some { s with calls := s.calls ++ [⟨flow, true, .lookup⟩] }
  | .disarm flow => some { s with calls := s.calls ++ [⟨flow, false, .disarm none⟩] }
  | .look i found => s.calls[i]?.bind fun c => s.look calendar i c found
  | .lock i lastFireAt now => s.calls[i]?.bind fun c => s.lock calendar i c lastFireAt now
  | .fire i a => s.calls[i]?.bind fun c => s.fire i c a
  | .tick k a now => s.tickers[k]?.bind fun t => s.tick calendar k t a now
  | .cancel i => s.calls[i]?.bind fun c => s.cancel i c

/-- A `FlowScheduler` under any number of concurrent calls. -/
def scheduler (calendar : Calendar) : Machine State Action := ⟨step calendar⟩

/-! ### Arms of one flow that do not overlap -/

/-- A step at which no `arm` takes the previous handle of its flow out of the map while another is
between this and the record of its ticker, and none is dropped with a ticker not recorded. -/
def Alone (s : State) : Action → Prop
  | .lock i _ _ => ∀ c schedule, s.calls[i]? = some c → c.stage = .disarm (some schedule) →
      schedule.trigger ≠ .webhook → ∀ d ∈ s.calls, d.flow = c.flow → d.stage.arming = false
  | .cancel i => ∀ c k, s.calls[i]? = some c → c.stage ≠ .record k
  | _ => True

/-- The ticker is in the map, or in the hands of the `arm` that records it. -/
def State.Owned (s : State) (k : ℕ) (flow : String) : Prop :=
  Dict.get? s.armed flow = some k ∨
    ∃ (i : ℕ) (c : Call), s.calls[i]? = some c ∧ c.flow = flow ∧ c.stage = .record k

structure Inv (s : State) : Prop where
  owned : ∀ (k : ℕ) (t : Ticker), s.tickers[k]? = some t → t.stage.alive = true →
    s.Owned k t.flow
  single : ∀ (i j : ℕ) (c d : Call), s.calls[i]? = some c → s.calls[j]? = some d →
    c.flow = d.flow → c.stage.arming = true → d.stage.arming = true → i = j
  vacant : ∀ c ∈ s.calls, c.stage.arming = true → Dict.get? s.armed c.flow = none
  plain : ∀ c ∈ s.calls, c.arms = false → c.stage = .disarm none ∨ c.stage = .done

variable {calendar : Calendar} {s t : State} {i j k : ℕ} {c : Call} {stage : CallStage}

theorem getElem?_setStage {d : Call} (hd : (s.setStage i c stage).calls[j]? = some d) :
    (i = j ∧ d = { c with stage := stage }) ∨ i ≠ j ∧ s.calls[j]? = some d := by
  rw [State.setStage, List.getElem?_set] at hd
  split_ifs at hd with hj hlt
  · exact .inl ⟨hj, (Option.some.inj hd).symm⟩
  · exact .inr ⟨hj, hd⟩

/-- A call that comes to a stage at which it holds nothing. -/
theorem Inv.leave (h : Inv s) (hc : s.calls[i]? = some c) (hstage : stage.arming = false)
    (hplain : c.arms = false → stage = .disarm none ∨ stage = .done)
    (hrecord : ∀ k, c.stage = .record k → Dict.get? s.armed c.flow = some k) :
    Inv (s.setStage i c stage) := by
  constructor
  · intro k t ht halive
    rcases h.owned k t ht halive with harmed | ⟨j, d, hd, hflow, hk⟩
    · exact .inl harmed
    · by_cases hj : i = j
      · subst hj
        rw [hc] at hd
        cases hd
        exact .inl (hflow ▸ hrecord k hk)
      · refine .inr ⟨j, d, ?_, hflow, hk⟩
        rw [State.setStage, List.getElem?_set_ne hj]
        exact hd
  · intro j l d e hd he hflow hdarm hearm
    rcases getElem?_setStage hd with ⟨_, rfl⟩ | ⟨_, hd⟩
    · rw [hstage] at hdarm
      cases hdarm
    · rcases getElem?_setStage he with ⟨_, rfl⟩ | ⟨_, he⟩
      · rw [hstage] at hearm
        cases hearm
      · exact h.single j l d e hd he hflow hdarm hearm
  · intro d hd harm
    rcases List.mem_or_eq_of_mem_set hd with hd | rfl
    · exact h.vacant d hd harm
    · rw [hstage] at harm
      cases harm
  · intro d hd hplain'
    rcases List.mem_or_eq_of_mem_set hd with hd | rfl
    · exact h.plain d hd hplain'
    · exact hplain hplain'

/-- A call whose flow has no handle in the map comes to a stage at which it arms; it may have
spawned a ticker. -/
theorem Inv.enter (h : Inv s) (hc : s.calls[i]? = some c) (harms : c.arms = true)
    (hvacant : Dict.get? s.armed c.flow = none) (hnot : ∀ k, c.stage ≠ .record k)
    (hsingle : ∀ (j : ℕ) (d : Call), s.calls[j]? = some d → d.flow = c.flow →
      d.stage.arming = true → i = j)
    {spawned : List Ticker} (hspawned : ∀ t ∈ spawned, t.flow = c.flow) (hlen : spawned.length ≤ 1)
    (hstage : spawned ≠ [] → stage = .record s.tickers.length) :
    Inv { s.setStage i c stage with tickers := s.tickers ++ spawned } := by
  have hlt : i < s.calls.length := (List.getElem?_eq_some_iff.mp hc).1
  constructor
  · intro k t ht halive
    rw [List.getElem?_append] at ht
    split_ifs at ht with hk
    · rcases h.owned k t ht halive with harmed | ⟨j, d, hd, hflow, hk⟩
      · exact .inl harmed
      · have hj : i ≠ j := by
          rintro rfl
          rw [hc] at hd
          cases hd
          exact hnot k hk
        refine .inr ⟨j, d, ?_, hflow, hk⟩
        change (s.calls.set i _)[j]? = some d
        rw [List.getElem?_set_ne hj]
        exact hd
    · -- the new ticker
      obtain ⟨hk', -⟩ := List.getElem?_eq_some_iff.mp ht
      have hmem := List.mem_of_getElem? ht
      refine .inr ⟨i, { c with stage := stage }, ?_, (hspawned t hmem).symm, ?_⟩
      · change (s.calls.set i _)[i]? = _
        rw [List.getElem?_set_self hlt]
      · have hk0 : k = s.tickers.length := by omega
        rw [hk0]
        exact hstage (List.ne_nil_of_mem hmem)
  · intro j l d e hd he hflow hdarm hearm
    rcases getElem?_setStage (s := s) hd with ⟨hj, rfl⟩ | ⟨hj, hd⟩
    · rcases getElem?_setStage (s := s) he with ⟨hl, rfl⟩ | ⟨_, he⟩
      · omega
      · rw [← hj]
        exact hsingle l e he hflow.symm hearm
    · rcases getElem?_setStage (s := s) he with ⟨hl, rfl⟩ | ⟨_, he⟩
      · rw [← hl]
        exact (hsingle j d hd hflow hdarm).symm
      · exact h.single j l d e hd he hflow hdarm hearm
  · intro d hd harm
    rcases List.mem_or_eq_of_mem_set hd with hd | rfl
    · exact h.vacant d hd harm
    · exact hvacant
  · intro d hd hplain
    rcases List.mem_or_eq_of_mem_set hd with hd | rfl
    · exact h.plain d hd hplain
    · rw [harms] at hplain
      cases hplain

/-! ### What leaves the map -/

theorem remove_calls (flow : String) : (s.remove flow).calls = s.calls := by
  unfold State.remove
  split <;> rfl

theorem remove_fired (flow : String) : (s.remove flow).fired = s.fired := by
  unfold State.remove
  split <;> rfl

theorem get?_remove (flow flow' : String) : Dict.get? (s.remove flow).armed flow' =
    if flow' = flow then none else Dict.get? s.armed flow' := by
  unfold State.remove
  split
  next hnone =>
    split_ifs with hflow
    · rw [hflow, hnone]
    · rfl
  · exact Dict.get?_erase s.armed flow flow'

theorem tickers_remove {flow : String} {t : Ticker}
    (ht : (s.remove flow).tickers[k]? = some t) : ∃ u, s.tickers[k]? = some u ∧ u.flow = t.flow ∧
      (t.stage.alive = true → u = t ∧ Dict.get? s.armed flow ≠ some k) := by
  unfold State.remove at ht
  split at ht
  next hnone => exact ⟨t, ht, rfl, fun _ => ⟨rfl, by rw [hnone]; exact (Option.some_ne_none k).symm⟩⟩
  next k' hk' =>
    dsimp only at ht
    rw [List.getElem?_modify] at ht
    obtain ⟨u, hu, rfl⟩ := Option.map_eq_some_iff.mp ht
    by_cases hk : k' = k
    · refine ⟨u, hu, by rw [if_pos hk], fun halive => ?_⟩
      rw [if_pos hk] at halive
      cases halive
    · refine ⟨u, hu, by rw [if_neg hk], fun _ => ⟨by rw [if_neg hk], ?_⟩⟩
      rw [hk']
      exact fun h => hk (Option.some.inj h)

theorem Inv.remove (h : Inv s) (flow : String) : Inv (s.remove flow) := by
  constructor
  · intro k t ht halive
    obtain ⟨u, hu, -, hsame⟩ := tickers_remove ht
    obtain ⟨rfl, hne⟩ := hsame halive
    rcases h.owned k u hu halive with harmed | hrecord
    · refine .inl ?_
      rw [get?_remove]
      split_ifs with hflow
      · exact absurd (hflow ▸ harmed) hne
      · exact harmed
    · rw [State.Owned, remove_calls]
      exact .inr hrecord
  · rw [remove_calls]
    exact h.single
  · intro c hc harm
    rw [remove_calls] at hc
    rw [get?_remove]
    split_ifs
    · rfl
    · exact h.vacant c hc harm
  · rw [remove_calls]
    exact h.plain

/-! ### The steps -/

theorem Inv.append (h : Inv s) (hc : c.stage.arming = false)
    (hplain : c.arms = false → c.stage = .disarm none ∨ c.stage = .done) :
    Inv { s with calls := s.calls ++ [c] } := by
  have hold : ∀ (j : ℕ) (d : Call), (s.calls ++ [c])[j]? = some d → d.stage.arming = true →
      s.calls[j]? = some d := by
    intro j d hd harm
    rw [List.getElem?_append] at hd
    split_ifs at hd with hj
    · exact hd
    · rw [List.mem_singleton.mp (List.mem_of_getElem? hd), hc] at harm
      cases harm
  constructor
  · intro k t ht halive
    rcases h.owned k t ht halive with harmed | ⟨j, d, hd, hrecord⟩
    · exact .inl harmed
    · exact .inr ⟨j, d, List.getElem?_append_left (List.getElem?_eq_some_iff.mp hd).1 ▸ hd, hrecord⟩
  · intro i j d e hd he hflow hdarm hearm
    exact h.single i j d e (hold i d hd hdarm) (hold j e he hearm) hflow hdarm hearm
  · intro d hd harm
    rcases List.mem_append.mp hd with hd | hd
    · exact h.vacant d hd harm
    · rw [List.mem_singleton.mp hd, hc] at harm
      cases harm
  · intro d hd hd'
    rcases List.mem_append.mp hd with hd | hd
    · exact h.plain d hd hd'
    · obtain rfl := List.mem_singleton.mp hd
      exact hplain hd'

/-- A call at a stage of `arm` alone is one of `arm`. -/
theorem Inv.arms (h : Inv s) (hc : s.calls[i]? = some c) (hdisarm : c.stage ≠ .disarm none)
    (hdone : c.stage ≠ .done) : c.arms = true := by
  by_contra hfalse
  rcases h.plain c (List.mem_of_getElem? hc) (Bool.not_eq_true _ ▸ hfalse) with hstage | hstage
  · exact hdisarm hstage
  · exact hdone hstage

theorem Inv.launch (h : Inv s) (hc : s.calls[i]? = some c) (harms : c.arms = true)
    (hnot : ∀ k, c.stage ≠ .record k) {schedule : ScheduleConfig}
    (hvacant : schedule.trigger ≠ .webhook → Dict.get? s.armed c.flow = none)
    (hsingle : schedule.trigger ≠ .webhook → ∀ (j : ℕ) (d : Call), s.calls[j]? = some d →
      d.flow = c.flow → d.stage.arming = true → i = j) : Inv (s.launch i c schedule) := by
  unfold State.launch
  split
  · exact h.leave hc rfl (fun _ => .inr rfl) fun k hk => absurd hk (hnot k)
  next hweb =>
    refine h.enter hc harms (hvacant hweb) hnot (hsingle hweb) ?_ (Nat.le_refl 1) fun _ => rfl
    intro t ht
    rw [List.mem_singleton.mp ht]

theorem Inv.arming (h : Inv s) (hc : s.calls[i]? = some c) (harms : c.arms = true)
    (hvacant : Dict.get? s.armed c.flow = none) (hnot : ∀ k, c.stage ≠ .record k)
    (hsingle : ∀ (j : ℕ) (d : Call), s.calls[j]? = some d → d.flow = c.flow →
      d.stage.arming = true → i = j) (stage : CallStage) : Inv (s.setStage i c stage) := by
  have hnew : Inv { s.setStage i c stage with tickers := s.tickers ++ [] } :=
    h.enter hc harms hvacant hnot hsingle (fun t ht => by cases ht) (Nat.zero_le 1)
      fun hnil => absurd rfl hnil
  rw [List.append_nil] at hnew
  exact hnew

theorem Inv.record (h : Inv s) (hc : s.calls[i]? = some c) (hstage : c.stage = .record k) :
    Inv { s.setStage i c .done with armed := Dict.insert s.armed c.flow k } := by
  have harming : c.stage.arming = true := by rw [hstage]; rfl
  have hvacant := h.vacant c (List.mem_of_getElem? hc) harming
  constructor
  · intro k' t ht halive
    change Dict.get? (Dict.insert s.armed c.flow k) t.flow = some k' ∨ _
    rw [Dict.get?_insert]
    rcases h.owned k' t ht halive with harmed | ⟨j, d, hd, hflow, hk⟩
    · refine .inl ?_
      rw [if_neg]
      · exact harmed
      · intro hflow
        rw [hflow, hvacant] at harmed
        cases harmed
    · by_cases hj : i = j
      · subst hj
        rw [hc] at hd
        cases hd
        rw [hstage] at hk
        cases hk
        exact .inl (if_pos hflow.symm)
      · refine .inr ⟨j, d, ?_, hflow, hk⟩
        change (s.calls.set i _)[j]? = some d
        rw [List.getElem?_set_ne hj]
        exact hd
  · intro j l d e hd he hflow hdarm hearm
    rcases getElem?_setStage (s := s) hd with ⟨_, rfl⟩ | ⟨_, hd⟩
    · cases hdarm
    · rcases getElem?_setStage (s := s) he with ⟨_, rfl⟩ | ⟨_, he⟩
      · cases hearm
      · exact h.single j l d e hd he hflow hdarm hearm
  · intro d hd harm
    obtain ⟨j, hj⟩ := List.mem_iff_getElem?.mp hd
    rcases getElem?_setStage (s := s) hj with ⟨_, rfl⟩ | ⟨hne, hd⟩
    · cases harm
    · -- the only call of the flow that arms is the one that records
      have hflow : d.flow ≠ c.flow := fun hflow =>
        hne (h.single i j c d hc hd hflow.symm harming harm)
      change Dict.get? (Dict.insert s.armed c.flow k) d.flow = none
      rw [Dict.get?_insert, if_neg hflow]
      exact h.vacant d (List.mem_of_getElem? hd) harm
  · intro d hd hplain
    rcases List.mem_or_eq_of_mem_set hd with hd | rfl
    · exact h.plain d hd hplain
    · exact .inr rfl

theorem Inv.lock (h : Inv s) {i : ℕ} {lastFireAt : Option ℕ} {now : ℕ}
    (hok : Alone s (.lock i lastFireAt now)) (hc : s.calls[i]? = some c)
    (hs : s.lock calendar i c lastFireAt now = some t) : Inv t := by
  have hremove := h.remove c.flow
  have hcr : (s.remove c.flow).calls[i]? = some c := by rw [remove_calls]; exact hc
  have hvacant : Dict.get? (s.remove c.flow).armed c.flow = none := by
    rw [get?_remove, if_pos rfl]
  unfold State.lock at hs
  split at hs
  next hstage =>
    cases hs
    exact hremove.leave hcr rfl (fun _ => .inr rfl) fun k hk => by rw [hstage] at hk; cases hk
  next schedule hstage =>
    have harms := h.arms hc (by simp [hstage]) (by simp [hstage])
    have hnot : ∀ k, c.stage ≠ .record k := fun k => by simp [hstage]
    have hsingle : schedule.trigger ≠ .webhook → ∀ (j : ℕ) (d : Call),
        (s.remove c.flow).calls[j]? = some d → d.flow = c.flow → d.stage.arming = true → i = j := by
      intro hweb j d hd hflow harm
      rw [remove_calls] at hd
      rw [hok c schedule hc hstage hweb d (List.mem_of_getElem? hd) hflow] at harm
      cases harm
    split_ifs at hs with hcatchUp
    · cases hs
      refine hremove.arming hcr harms hvacant hnot (hsingle fun hweb => ?_) _
      -- a webhook has nothing to catch up
      have hdue := (Bool.and_eq_true _ _ ▸ hcatchUp).2
      unfold shouldCatchUp at hdue
      split at hdue
      · cases hdue
      · rw [hweb] at hdue
        cases hdue
    · cases hs
      exact hremove.launch hcr harms hnot (fun _ => hvacant) hsingle
  next k hstage =>
    cases hs
    exact h.record hc hstage
  · cases hs

theorem Inv.fire (h : Inv s) {i : ℕ} {a : Answer} (hc : s.calls[i]? = some c)
    (hs : s.fire i c a = some t) : Inv t := by
  unfold State.fire at hs
  split at hs
  next schedule f hstage =>
    have harming : c.stage.arming = true := by rw [hstage]; rfl
    have harms := h.arms hc (by simp [hstage]) (by simp [hstage])
    have hnot : ∀ k, c.stage ≠ .record k := fun k => by simp [hstage]
    have hvacant := h.vacant c (List.mem_of_getElem? hc) harming
    have hsingle : ∀ (j : ℕ) (d : Call), s.calls[j]? = some d → d.flow = c.flow →
        d.stage.arming = true → i = j :=
      fun j d hd hflow harm => h.single i j c d hc hd hflow.symm harming harm
    split at hs
    · cases hs
      exact h.arming hc harms hvacant hnot hsingle _
    · cases hs
      exact h.launch hc harms hnot (fun _ => hvacant) fun _ => hsingle
  · cases hs

theorem Ticker.alive_of_next {t : Ticker} {a : Answer} {now : ℕ} {stage : TickerStage}
    (h : t.next calendar a now = some stage) : t.stage.alive = true := by
  unfold Ticker.next at h
  split at h
  next hstage => rw [hstage]; rfl
  next hstage => rw [hstage]; rfl
  next hstage => rw [hstage]; rfl
  next f hstage => rw [hstage]; rfl
  · cases h
  · cases h

theorem Inv.tick (h : Inv s) {k : ℕ} {x : Ticker} {a : Answer} {now : ℕ}
    (hx : s.tickers[k]? = some x) (hs : s.tick calendar k x a now = some t) : Inv t := by
  obtain ⟨stage, hstage, rfl⟩ := Option.map_eq_some_iff.mp hs
  refine ⟨?_, h.single, h.vacant, h.plain⟩
  intro j y hy halive
  dsimp only at hy
  rw [List.getElem?_set] at hy
  split_ifs at hy with hj
  · obtain rfl := Option.some.inj hy
    exact hj ▸ h.owned k x hx (Ticker.alive_of_next hstage)
  · exact h.owned j y hy halive

theorem Inv.cancel (h : Inv s) {i : ℕ} (hok : Alone s (.cancel i)) (hc : s.calls[i]? = some c)
    (hs : s.cancel i c = some t) : Inv t := by
  unfold State.cancel at hs
  split_ifs at hs
  cases hs
  exact h.leave hc rfl (fun _ => .inr rfl) fun k hk => absurd hk (hok c k hc)

/-- What the answer of the registry does to a call of `arm`. -/
theorem look_cases {i : ℕ} {found : Option (Option ScheduleConfig)}
    (hs : s.look calendar i c found = some t) :
    c.stage = .lookup ∧ ∃ stage : CallStage, stage.arming = false ∧ t = s.setStage i c stage := by
  unfold State.look at hs
  split at hs
  next hstage =>
    cases hs
    exact ⟨hstage, _, rfl, rfl⟩
  next hstage =>
    cases hs
    exact ⟨hstage, _, rfl, rfl⟩
  next hstage =>
    split_ifs at hs
    · cases hs
      exact ⟨hstage, _, rfl, rfl⟩
    · split at hs
      · cases hs
        exact ⟨hstage, _, rfl, rfl⟩
      · cases hs
        exact ⟨hstage, _, rfl, rfl⟩
  · cases hs

theorem Inv.look (h : Inv s) {i : ℕ} {found : Option (Option ScheduleConfig)}
    (hc : s.calls[i]? = some c) (hs : s.look calendar i c found = some t) : Inv t := by
  obtain ⟨hstage, stage, hnot, rfl⟩ := look_cases hs
  have harms := h.arms hc (by simp [hstage]) (by simp [hstage])
  refine h.leave hc hnot (fun hfalse => ?_) fun k hk => ?_
  · rw [harms] at hfalse
    cases hfalse
  · rw [hstage] at hk
    cases hk

theorem step_inv (h : Inv s) {a : Action} (hok : Alone s a) (hs : step calendar s a = some t) :
    Inv t := by
  cases a with
  | arm flow =>
    cases hs
    exact h.append rfl fun hfalse => by cases hfalse
  | disarm flow =>
    cases hs
    exact h.append rfl fun _ => .inl rfl
  | look i found =>
    obtain ⟨c, hc, hs⟩ := Option.bind_eq_some_iff.mp hs
    exact h.look hc hs
  | lock i lastFireAt now =>
    obtain ⟨c, hc, hs⟩ := Option.bind_eq_some_iff.mp hs
    exact h.lock hok hc hs
  | fire i a =>
    obtain ⟨c, hc, hs⟩ := Option.bind_eq_some_iff.mp hs
    exact h.fire hc hs
  | tick k a now =>
    obtain ⟨x, hx, hs⟩ := Option.bind_eq_some_iff.mp hs
    exact h.tick hx hs
  | cancel i =>
    obtain ⟨c, hc, hs⟩ := Option.bind_eq_some_iff.mp hs
    exact h.cancel hok hc hs

theorem reach_inv (h : (scheduler calendar).Reach Alone .start s) : Inv s := by
  refine h.invariant ⟨?_, ?_, ?_, ?_⟩ fun u a v hu hok hs => step_inv hu hok hs
  · intro k t ht
    cases ht
  · intro i j c d hc
    cases hc
  · intro c hc
    cases hc
  · intro c hc
    cases hc

/-! ### At most one ticker -/

/-- The flow has a single ticker that is alive, if any. -/
def State.SingleTicker (s : State) (flow : String) : Prop :=
  ∀ (j k : ℕ) (x y : Ticker), s.tickers[j]? = some x → s.tickers[k]? = some y → x.flow = flow →
    y.flow = flow → x.stage.alive = true → y.stage.alive = true → j = k

/-- No call of `arm` for the flow is in progress. -/
def State.NoArm (s : State) (flow : String) : Prop :=
  ∀ c ∈ s.calls, c.arms = true → c.flow = flow → c.stage = .done

/-- The fires of the tickers of a flow. -/
def State.firesOf (s : State) (flow : String) : List (ℕ × String) :=
  s.fired.filter fun e => e.2 = flow

/-- No ticker of the flow is alive. -/
def State.Silent (s : State) (flow : String) : Prop :=
  ∀ t ∈ s.tickers, t.flow = flow → t.stage.alive = false

/-- A call of `disarm` takes its step and returns. -/
def Disarms (calendar : Calendar) (flow : String) (s t : State) : Prop :=
  ∃ (i : ℕ) (last : Option ℕ) (now : ℕ), s.calls[i]? = some ⟨flow, false, .disarm none⟩ ∧
    step calendar s (.lock i last now) = some t

/-- No `arm` of the flow starts. -/
def WithoutArm (flow : String) (_ : State) (a : Action) : Prop := a ≠ .arm flow

theorem Inv.owned_unique (h : Inv s) {flow : String} (hj : s.Owned j flow) (hk : s.Owned k flow) :
    j = k := by
  have hmeet : ∀ (j k i : ℕ) (c : Call), Dict.get? s.armed flow = some j → s.calls[i]? = some c →
      c.flow = flow → c.stage = .record k → False := by
    intro j k i c hj hc hflow hstage
    have hnone := h.vacant c (List.mem_of_getElem? hc) (by rw [hstage]; rfl)
    rw [hflow, hj] at hnone
    cases hnone
  rcases hj with hj | ⟨i, c, hc, hflow, hj⟩
  · rcases hk with hk | ⟨i', c', hc', hflow', hk⟩
    · exact Option.some.inj (hj.symm.trans hk)
    · exact (hmeet j k i' c' hj hc' hflow' hk).elim
  · rcases hk with hk | ⟨i', c', hc', hflow', hk⟩
    · exact (hmeet k j i c hk hc hflow hj).elim
    · have hi := h.single i i' c c' hc hc' (hflow.trans hflow'.symm) (by rw [hj]; rfl)
        (by rw [hk]; rfl)
      subst hi
      rw [hc] at hc'
      cases hc'
      rw [hj] at hk
      exact CallStage.record.inj hk

/-! ### After the last `disarm` -/

/-- The calls for the flow that are in progress take its handle out of the map, and no more. -/
def State.Idle (s : State) (flow : String) : Prop :=
  ∀ c ∈ s.calls, c.flow = flow → c.stage = .disarm none ∨ c.stage = .done

variable {flow : String}

theorem Inv.idle (h : Inv s) (hnone : s.NoArm flow) : s.Idle flow := by
  intro c hc hflow
  cases harms : c.arms with
  | true => exact .inr (hnone c hc harms hflow)
  | false => exact h.plain c hc harms

/-- The flow has no ticker, and no call that spawns one. -/
def State.Still (s : State) (flow : String) : Prop := s.Silent flow ∧ s.Idle flow

theorem Inv.still (h : Inv s) (hnone : s.NoArm flow) (hs : Disarms calendar flow s t) :
    t.Still flow := by
  obtain ⟨i, last, now, hc, hs⟩ := hs
  obtain ⟨c, hc', hs⟩ := Option.bind_eq_some_iff.mp hs
  rw [hc] at hc'
  cases hc'
  cases hs
  constructor
  · intro x hx hflow
    obtain ⟨k, hk⟩ := List.mem_iff_getElem?.mp hx
    obtain ⟨u, hu, -, hsame⟩ := tickers_remove hk
    by_contra halive
    rw [Bool.not_eq_false] at halive
    obtain ⟨rfl, hne⟩ := hsame halive
    rcases h.owned k u hu halive with harmed | ⟨j, d, hd, hdflow, hstage⟩
    · exact hne (hflow ▸ harmed)
    · rcases h.idle hnone d (List.mem_of_getElem? hd) (hdflow.trans hflow) with hidle | hidle
      · rw [hstage] at hidle
        cases hidle
      · rw [hstage] at hidle
        cases hidle
  · intro d hd hflow
    rcases List.mem_or_eq_of_mem_set hd with hd | rfl
    · rw [remove_calls] at hd
      exact h.idle hnone d hd hflow
    · exact .inr rfl

/-- The flow stays still and does not fire. -/
def Quiet (flow : String) (s t : State) : Prop :=
  s.Still flow → t.Still flow ∧ t.firesOf flow = s.firesOf flow

theorem Quiet.trans {u : State} (h : Quiet flow s t) (h' : Quiet flow t u) : Quiet flow s u := by
  intro hs
  obtain ⟨ht, hfires⟩ := h hs
  obtain ⟨hu, hfires'⟩ := h' ht
  exact ⟨hu, hfires'.trans hfires⟩

theorem quiet_setStage
    (hstage : c.flow = flow → s.Idle flow → stage = .disarm none ∨ stage = .done) :
    Quiet flow s (s.setStage i c stage) := by
  rintro ⟨hsilent, hidle⟩
  refine ⟨⟨hsilent, fun d hd hflow => ?_⟩, rfl⟩
  rcases List.mem_or_eq_of_mem_set hd with hd | rfl
  · exact hidle d hd hflow
  · exact hstage hflow hidle

theorem quiet_remove (flow' : String) : Quiet flow s (s.remove flow') := by
  rintro ⟨hsilent, hidle⟩
  refine ⟨⟨fun x hx hflow => ?_, ?_⟩, ?_⟩
  · obtain ⟨k, hk⟩ := List.mem_iff_getElem?.mp hx
    obtain ⟨u, hu, -, hsame⟩ := tickers_remove hk
    by_contra halive
    rw [Bool.not_eq_false] at halive
    obtain ⟨rfl, -⟩ := hsame halive
    rw [hsilent u (List.mem_of_getElem? hu) hflow] at halive
    cases halive
  · unfold State.Idle at hidle ⊢
    rw [remove_calls]
    exact hidle
  · unfold State.firesOf
    rw [remove_fired]

theorem quiet_launch (schedule : ScheduleConfig) (hflow : c.flow ≠ flow) :
    Quiet flow s (s.launch i c schedule) := by
  unfold State.launch
  split
  · exact quiet_setStage fun h => absurd h hflow
  · intro hs
    obtain ⟨⟨hsilent, hidle⟩, hfires⟩ :=
      quiet_setStage (s := s) (i := i) (fun h => absurd h hflow) hs
    refine ⟨⟨fun x hx hx' => ?_, hidle⟩, hfires⟩
    rcases List.mem_append.mp hx with hx | hx
    · exact hsilent x hx hx'
    · rw [List.mem_singleton.mp hx] at hx'
      exact absurd hx' hflow

theorem quiet_tick {x : Ticker} {a : Answer} {now : ℕ} (hx : s.tickers[k]? = some x)
    (hs : s.tick calendar k x a now = some t) : Quiet flow s t := by
  obtain ⟨stage, hstage, rfl⟩ := Option.map_eq_some_iff.mp hs
  rintro ⟨hsilent, hidle⟩
  have hflow : x.flow ≠ flow := by
    intro hflow
    have halive := Ticker.alive_of_next hstage
    rw [hsilent x (List.mem_of_getElem? hx) hflow] at halive
    cases halive
  refine ⟨⟨fun y hy hy' => ?_, hidle⟩, ?_⟩
  · rcases List.mem_or_eq_of_mem_set hy with hy | rfl
    · exact hsilent y hy hy'
    · exact absurd hy' hflow
  · unfold State.firesOf
    rw [List.filter_append]
    split_ifs
    · rw [List.filter_singleton, decide_eq_false hflow]
      exact List.append_nil _
    · exact List.append_nil _

theorem step_quiet {a : Action} (ha : a ≠ .arm flow) (hs : step calendar s a = some t) :
    Quiet flow s t := by
  -- a call for the flow is at no stage but the two of `Idle`
  have hother : ∀ (i : ℕ) (c : Call), s.calls[i]? = some c → s.Idle flow →
      c.stage ≠ .disarm none → c.stage ≠ .done → c.flow ≠ flow := by
    intro i c hc hidle hdisarm hdone hflow
    rcases hidle c (List.mem_of_getElem? hc) hflow with hstage | hstage
    · exact hdisarm hstage
    · exact hdone hstage
  have happend : ∀ c : Call, (c.flow = flow → c.stage = .disarm none) →
      Quiet flow s { s with calls := s.calls ++ [c] } := by
    rintro c hc ⟨hsilent, hidle⟩
    refine ⟨⟨hsilent, fun d hd hflow => ?_⟩, rfl⟩
    rcases List.mem_append.mp hd with hd | hd
    · exact hidle d hd hflow
    · obtain rfl := List.mem_singleton.mp hd
      exact .inl (hc hflow)
  cases a with
  | arm flow' =>
    cases hs
    exact happend _ fun hflow => absurd (congrArg Action.arm hflow) ha
  | disarm flow' =>
    cases hs
    exact happend _ fun _ => rfl
  | look i found =>
    obtain ⟨c, hc, hs⟩ := Option.bind_eq_some_iff.mp hs
    obtain ⟨hstage, stage, -, rfl⟩ := look_cases hs
    exact quiet_setStage fun hflow hidle =>
      absurd hflow (hother i c hc hidle (by simp [hstage]) (by simp [hstage]))
  | lock i last now =>
    obtain ⟨c, hc, hs⟩ := Option.bind_eq_some_iff.mp hs
    unfold State.lock at hs
    split at hs
    next hstage =>
      cases hs
      exact (quiet_remove c.flow).trans (quiet_setStage fun _ _ => .inr rfl)
    next schedule hstage =>
      intro hstill
      have hflow := hother i c hc hstill.2 (by simp [hstage]) (by simp [hstage])
      split_ifs at hs
      · cases hs
        exact ((quiet_remove c.flow).trans (quiet_setStage fun h => absurd h hflow)) hstill
      · cases hs
        exact ((quiet_remove c.flow).trans (quiet_launch schedule hflow)) hstill
    next k hstage =>
      cases hs
      exact quiet_setStage (s := s) (i := i) (c := c) fun _ _ => .inr rfl
    · cases hs
  | fire i a =>
    obtain ⟨c, hc, hs⟩ := Option.bind_eq_some_iff.mp hs
    unfold State.fire at hs
    split at hs
    next schedule f hstage =>
      intro hstill
      have hflow := hother i c hc hstill.2 (by simp [hstage]) (by simp [hstage])
      split at hs
      · cases hs
        exact quiet_setStage (fun h => absurd h hflow) hstill
      · cases hs
        exact quiet_launch schedule hflow hstill
    · cases hs
  | tick k a now =>
    obtain ⟨x, hx, hs⟩ := Option.bind_eq_some_iff.mp hs
    exact quiet_tick hx hs
  | cancel i =>
    obtain ⟨c, hc, hs⟩ := Option.bind_eq_some_iff.mp hs
    unfold State.cancel at hs
    split_ifs at hs
    cases hs
    exact quiet_setStage fun _ _ => .inr rfl

theorem path_quiet {u : State} (hpath : (scheduler calendar).Reach (WithoutArm flow) t u)
    (ht : t.Still flow) : u.Still flow ∧ u.firesOf flow = t.firesOf flow := by
  refine hpath.invariant (I := fun u => u.Still flow ∧ u.firesOf flow = t.firesOf flow) ⟨ht, rfl⟩ ?_
  rintro v a w ⟨hv, hfires⟩ ha hs
  obtain ⟨hw, hfires'⟩ := step_quiet ha hs hv
  exact ⟨hw, hfires'.trans hfires⟩

/-- A calendar on which every expression is known and none has a next time. -/
def noCalendar : Calendar := ⟨fun _ => .ok (), fun _ => true, fun _ _ _ => none⟩

def everyFive : ScheduleConfig := ⟨true, .interval 5, none, .skip, .one⟩

/-- Two arms of a flow wait for their catch-up fires at one time; then a `disarm` is called. -/
def overlappingArms : List Action :=
  [.arm "f", .look 0 (some (some everyFive)), .lock 0 (some 0) 60,
    .arm "f", .look 1 (some (some everyFive)), .lock 1 (some 0) 60,
    .fire 0 ⟨true, true, true⟩, .fire 0 ⟨true, true, true⟩, .lock 0 none 60,
    .fire 1 ⟨true, true, true⟩, .fire 1 ⟨true, true, true⟩, .lock 1 none 60,
    .disarm "f"]

def ticks : List Action :=
  [.tick 0 ⟨true, true, true⟩ 61, .tick 0 ⟨true, true, true⟩ 65, .tick 0 ⟨true, true, true⟩ 65]

/-- A ticker that has fired, and the `disarm` that takes it out of the map. -/
def armThenDisarm : List Action :=
  [.arm "f", .look 0 (some (some everyFive)), .lock 0 none 60, .lock 0 none 60] ++ ticks ++
    [.disarm "f"]

def aloneGuard (s : State) : Action → Bool
  | .lock i _ _ => (s.calls[i]?.map Call.stage).all fun stage =>
      decide (stage = .disarm (some everyFive) → s.calls.all fun d => !d.stage.arming) &&
        decide (stage ∈ [.disarm (some everyFive), .disarm none, .record 0])
  | .cancel _ => false
  | _ => true

theorem alone_of_guard (s : State) (a : Action) (h : aloneGuard s a = true) : Alone s a := by
  cases a with
  | lock i last now =>
    intro c schedule hc hstage _ d hd _
    rw [aloneGuard, hc, Option.map_some, Option.all_some, hstage, Bool.and_eq_true,
      decide_eq_true_eq, decide_eq_true_eq] at h
    obtain ⟨hnone, hmem⟩ := h
    simp only [List.mem_cons, CallStage.disarm.injEq, Option.some.injEq, reduceCtorEq,
      List.not_mem_nil, or_false] at hmem
    subst hmem
    have hd' := List.all_eq_true.mp (hnone rfl) d hd
    simpa using hd'
  | cancel i => cases h
  | arm flow => exact trivial
  | disarm flow => exact trivial
  | look i found => exact trivial
  | fire i a => exact trivial
  | tick k a now => exact trivial

end Jaiba.Server.FlowScheduler
