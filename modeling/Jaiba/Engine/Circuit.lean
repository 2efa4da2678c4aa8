import Mathlib.Logic.Function.Basic
import Jaiba.Error
import Jaiba.Lib.Dict
import Jaiba.Lib.Machine

/-!
# Circuit breakers (`engine/circuit.rs`)

A breaker opens after enough failures and, once its time is over, lets a few
calls through as probes. The slot of a probe is taken by `permit` and given back
by `success` or `failure`, which the processors call where they see the outcome
of the call.
-/

namespace Jaiba.Engine
open Jaiba.Lib

structure CircuitBreakerConfig where
  enabled : Bool
  failureThreshold : ℕ
  openSeconds : ℕ
  halfOpenRequests : ℕ

structure CircuitState where
  failures : ℕ
  openedAt : Option ℕ
  halfOpenInFlight : ℕ
  deriving DecidableEq

/-- Instants are numbers of nanoseconds. -/
structure CircuitBreakers where
  config : CircuitBreakerConfig
  states : Dict String CircuitState

namespace CircuitBreakers

def create (config : CircuitBreakerConfig) : Except FlowError CircuitBreakers :=
  if config.failureThreshold = 0 ∨ config.openSeconds = 0 ∨ config.halfOpenRequests = 0 then
    .error (.configuration "circuit breaker thresholds and durations must be greater than zero")
  else .ok ⟨config, Dict.empty⟩

/-- The state of a connection; a new one is closed. -/
def state (b : CircuitBreakers) (connection : String) : CircuitState :=
  (Dict.get? b.states connection).getD ⟨0, none, 0⟩

def withState (b : CircuitBreakers) (connection : String) (st : CircuitState) : CircuitBreakers :=
  { b with states := Dict.insert b.states connection st }

def permit (b : CircuitBreakers) (connection : String) (now : ℕ) :
    Except FlowError Unit × CircuitBreakers :=
  if !b.config.enabled then (.ok (), b)
  else
    let st := b.state connection
    match st.openedAt with
    | none => (.ok (), b.withState connection st)
    | some openedAt =>
      if now - openedAt < b.config.openSeconds * 1000000000 then
        (.error (.circuitOpen connection), b.withState connection st)
      else if b.config.halfOpenRequests ≤ st.halfOpenInFlight then
        (.error (.circuitOpen connection), b.withState connection st)
      else
        (.ok (), b.withState connection { st with halfOpenInFlight := st.halfOpenInFlight + 1 })

def success (b : CircuitBreakers) (connection : String) : CircuitBreakers :=
  match Dict.get? b.states connection with
  | none => b
  | some _ => b.withState connection ⟨0, none, 0⟩

/-- The counter of failures is a saturating `u32`. -/
def failure (b : CircuitBreakers) (connection : String) (now : ℕ) : CircuitBreakers :=
  if !b.config.enabled then b
  else
    let st := b.state connection
    let failures := min (st.failures + 1) 4294967295
    b.withState connection
      { failures
        openedAt := if b.config.failureThreshold ≤ failures then some now else st.openedAt
        halfOpenInFlight := 0 }

variable (b : CircuitBreakers) (connection : String) (now : ℕ) (c : String)

theorem state_withState (st : CircuitState) :
    (b.withState connection st).state c = if c = connection then st else b.state c := by
  rw [state, withState, Dict.get?_insert]
  by_cases hc : c = connection
  · rw [if_pos hc, if_pos hc]
    rfl
  · rw [if_neg hc, if_neg hc]
    rfl

theorem state_success :
    (b.success connection).state c = if c = connection then ⟨0, none, 0⟩ else b.state c := by
  unfold success
  split
  next hnone =>
    by_cases hc : c = connection
    · rw [if_pos hc, hc, state, hnone]
      rfl
    · rw [if_neg hc]
  · exact state_withState b connection c _

theorem state_failure (henabled : b.config.enabled = true) :
    ∃ st : CircuitState, st.halfOpenInFlight = 0 ∧
      ∀ c, (b.failure connection now).state c = if c = connection then st else b.state c := by
  unfold failure
  rw [henabled, if_neg (by decide)]
  exact ⟨_, rfl, fun c => state_withState b connection c _⟩

/-- When a permit is given, and what it changes. -/
theorem permit_cases (henabled : b.config.enabled = true) :
    ((b.state connection).openedAt = none ∧
      b.permit connection now = (.ok (), b.withState connection (b.state connection))) ∨
    (∃ openedAt, (b.state connection).openedAt = some openedAt ∧
      (now - openedAt < b.config.openSeconds * 1000000000 ∨
        b.config.halfOpenRequests ≤ (b.state connection).halfOpenInFlight) ∧
      b.permit connection now =
        (.error (.circuitOpen connection), b.withState connection (b.state connection))) ∨
    ∃ openedAt, (b.state connection).openedAt = some openedAt ∧
      (b.state connection).halfOpenInFlight < b.config.halfOpenRequests ∧
      b.permit connection now = (.ok (), b.withState connection
        { b.state connection with
          halfOpenInFlight := (b.state connection).halfOpenInFlight + 1 }) := by
  unfold permit
  rw [henabled, if_neg (by decide)]
  dsimp only
  cases hopen : (b.state connection).openedAt with
  | none => exact .inl ⟨rfl, rfl⟩
  | some openedAt =>
    dsimp only
    by_cases hearly : now - openedAt < b.config.openSeconds * 1000000000
    · rw [if_pos hearly]
      exact .inr (.inl ⟨openedAt, rfl, .inl hearly, rfl⟩)
    · rw [if_neg hearly]
      by_cases hfull : b.config.halfOpenRequests ≤ (b.state connection).halfOpenInFlight
      · rw [if_pos hfull]
        exact .inr (.inl ⟨openedAt, rfl, .inr hfull, rfl⟩)
      · rw [if_neg hfull]
        exact .inr (.inr ⟨openedAt, rfl, Nat.lt_of_not_le hfull, rfl⟩)

theorem success_config : (b.success connection).config = b.config := by
  unfold success
  split <;> rfl

theorem failure_config : (b.failure connection now).config = b.config := by
  unfold failure
  split_ifs <;> rfl

end CircuitBreakers

/-! ### Calls under a permit -/

/-- What a call tells the breaker when it ends. -/
inductive Report where
  | success | failure | nothing
  deriving DecidableEq

/-- `opens_circuit`. -/
def opensCircuit : FlowError → Bool
  | .messageRejected _ | .configuration _ | .packetTooLarge .. => false
  | _ => true

/-- How `PutDatabase::execute` ends after its permit; the time-out of the
engine drops the execution. -/
inductive DatabaseCall where
  | planRefused (e : FlowError)
  | recordsRefused (message : String)
  | written
  | writeFailed (e : FlowError)
  | dropped
  deriving DecidableEq

def DatabaseCall.report : DatabaseCall → Report
  | .planRefused _ | .recordsRefused _ | .dropped => .nothing
  | .written => .success
  -- a rejected statement proves the database is reachable
  | .writeFailed e => if e.isRetryable then .failure else .success

/-- How `PublishKafka::execute` ends after its permit. -/
inductive KafkaCall where
  | messagesRefused (e : FlowError)
  | published
  | publishFailed (e : FlowError)
  | dropped
  deriving DecidableEq

def KafkaCall.report : KafkaCall → Report
  | .messagesRefused _ | .dropped => .nothing
  | .published => .success
  | .publishFailed e => if opensCircuit e then .failure else .nothing

inductive CallEnd where
  | database (d : DatabaseCall)
  | kafka (k : KafkaCall)
  deriving DecidableEq

def CallEnd.report : CallEnd → Report
  | .database d => d.report
  | .kafka k => k.report

/-- The permitted calls of a connection that are executing. -/
structure Calls where
  ordinary : ℕ
  /-- permitted while the breaker was half open -/
  probes : ℕ
  deriving DecidableEq

structure Guarded where
  breakers : CircuitBreakers
  now : ℕ
  calls : String → Calls

inductive CircuitAct where
  | wait (nanos : ℕ)
  | permit (connection : String)
  /-- a permitted call ends: with its report, or dropped -/
  | finish (connection : String) (probe : Bool) (call : CallEnd)

namespace Guarded

def start (b : CircuitBreakers) : Guarded := ⟨b, 0, fun _ => ⟨0, 0⟩⟩

/-- A call is permitted; it is a probe if the breaker is open. -/
def enter (s : Guarded) (connection : String) : Calls :=
  let calls := s.calls connection
  if s.breakers.config.enabled ∧ (s.breakers.state connection).openedAt.isSome then
    { calls with probes := calls.probes + 1 }
  else { calls with ordinary := calls.ordinary + 1 }

def apply (s : Guarded) (connection : String) : Report → CircuitBreakers
  | .success => s.breakers.success connection
  | .failure => s.breakers.failure connection s.now
  | .nothing => s.breakers

/-- One call less. -/
def leave (calls : Calls) (probe : Bool) : Option Calls :=
  if probe then
    if calls.probes = 0 then none else some { calls with probes := calls.probes - 1 }
  else
    if calls.ordinary = 0 then none else some { calls with ordinary := calls.ordinary - 1 }

def step (s : Guarded) : CircuitAct → Option Guarded
  | .wait nanos => some { s with now := s.now + nanos }
  | .permit connection =>
    match s.breakers.permit connection s.now with
    | (.ok _, b) =>
      some { s with
        breakers := b
        calls := Function.update s.calls connection (s.enter connection) }
    | (.error _, b) => some { s with breakers := b }
  | .finish connection probe call =>
    (leave (s.calls connection) probe).map fun calls =>
      { s with
        breakers := s.apply connection call.report
        calls := Function.update s.calls connection calls }

def machine : Machine Guarded CircuitAct := ⟨step⟩

/-- At most `half_open_requests` probes of a connection execute at once. -/
def Bounded (s : Guarded) : Prop :=
  ∀ c, (s.calls c).probes ≤ s.breakers.config.halfOpenRequests

/-- Once its time is over, a breaker without executing calls lets the next one through. -/
def Unwedged (s : Guarded) : Prop :=
  ∀ c openedAt, (s.breakers.state c).openedAt = some openedAt →
    s.breakers.config.openSeconds * 1000000000 ≤ s.now - openedAt → s.calls c = ⟨0, 0⟩ →
    (s.breakers.permit c s.now).1 = .ok ()

/-- A report comes while no other probe of the connection executes; and the
probes that end without one since the last report are fewer than the slots. -/
def Clean (s : Guarded) : CircuitAct → Prop
  | .wait _ | .permit _ => True
  | .finish connection probe call =>
    if call.report = .nothing then
      probe = true → (s.breakers.state connection).halfOpenInFlight -
        (s.calls connection).probes + 1 < s.breakers.config.halfOpenRequests
    else (s.calls connection).probes = if probe then 1 else 0

instance (s : Guarded) (a : CircuitAct) : Decidable (Clean s a) := by
  cases a <;> unfold Clean <;> infer_instance

theorem clean_of_decide (s : Guarded) (a : CircuitAct) (h : decide (Clean s a) = true) : Clean s a :=
  of_decide_eq_true h

/-- The slots taken are those of the executing probes and those that were leaked. -/
structure Inv (s : Guarded) : Prop where
  enabled : s.breakers.config.enabled = true
  closed : ∀ c, (s.breakers.state c).openedAt = none →
    (s.calls c).probes = 0 ∧ (s.breakers.state c).halfOpenInFlight = 0
  taken : ∀ c, (s.calls c).probes ≤ (s.breakers.state c).halfOpenInFlight
  limit : ∀ c, (s.breakers.state c).halfOpenInFlight ≤ s.breakers.config.halfOpenRequests
  leaked : ∀ c, (s.breakers.state c).halfOpenInFlight - (s.calls c).probes <
    s.breakers.config.halfOpenRequests

variable {s t : Guarded} {a : CircuitAct}

theorem Inv.bounded (h : Inv s) : Bounded s := fun c => (h.taken c).trans (h.limit c)

/-- Without an executing call every slot that is taken was leaked. -/
theorem Inv.unwedged (h : Inv s) : Unwedged s := by
  intro c openedAt hopen htime hnone
  have hleaked := h.leaked c
  rw [hnone] at hleaked
  rcases s.breakers.permit_cases c s.now h.enabled with ⟨hclosed, -⟩ | ⟨t, ht, hwhy, -⟩ | ⟨t, -, -, hp⟩
  · rw [hopen] at hclosed
    cases hclosed
  · rw [hopen] at ht
    cases ht
    dsimp only at hleaked
    omega
  · rw [hp]

theorem start_inv {config : CircuitBreakerConfig} {b : CircuitBreakers}
    (h : CircuitBreakers.create config = .ok b) (henabled : config.enabled = true) :
    Inv (start b) := by
  unfold CircuitBreakers.create at h
  split_ifs at h with hzero
  cases h
  refine ⟨henabled, fun c _ => ⟨rfl, rfl⟩, fun c => Nat.le_refl _, fun c => Nat.zero_le _, fun c => ?_⟩
  have hpos : config.halfOpenRequests ≠ 0 := fun h0 => hzero (.inr (.inr h0))
  exact Nat.pos_of_ne_zero hpos

/-- A step that changes one connection. -/
theorem Inv.of_connection (h : Inv s) (connection : String) {st : CircuitState} {calls : Calls}
    (hconfig : t.breakers.config = s.breakers.config)
    (hstate : ∀ c, t.breakers.state c = if c = connection then st else s.breakers.state c)
    (hcalls : t.calls = Function.update s.calls connection calls)
    (hclosed : st.openedAt = none → calls.probes = 0 ∧ st.halfOpenInFlight = 0)
    (htaken : calls.probes ≤ st.halfOpenInFlight)
    (hlimit : st.halfOpenInFlight ≤ s.breakers.config.halfOpenRequests)
    (hleaked : st.halfOpenInFlight - calls.probes < s.breakers.config.halfOpenRequests) :
    Inv t := by
  have hown : t.breakers.state connection = st := by rw [hstate, if_pos rfl]
  have hother : ∀ c, c ≠ connection → t.breakers.state c = s.breakers.state c ∧
      t.calls c = s.calls c := by
    intro c hc
    rw [hstate, if_neg hc, hcalls, Function.update_of_ne hc]
    exact ⟨rfl, rfl⟩
  have hmine : t.calls connection = calls := by rw [hcalls, Function.update_self]
  refine ⟨by rw [hconfig, h.enabled], fun c => ?_, fun c => ?_, fun c => ?_, fun c => ?_⟩
  all_goals
    by_cases hc : c = connection
    · rw [hc, hown]
      first
        | rw [hmine, hconfig]
        | rw [hmine]
        | rw [hconfig]
      assumption
    · obtain ⟨hst, hca⟩ := hother c hc
      rw [hst]
      first
        | rw [hca, hconfig]
        | rw [hca]
        | rw [hconfig]
      first
        | exact h.closed c
        | exact h.taken c
        | exact h.limit c
        | exact h.leaked c

theorem leave_probe {calls calls' : Calls} {probe : Bool} (h : leave calls probe = some calls') :
    calls'.probes = if probe then calls.probes - 1 else calls.probes := by
  unfold leave at h
  cases probe
  · rw [if_neg (by decide)] at h
    split_ifs at h
    cases h
    rfl
  · rw [if_pos rfl] at h
    split_ifs at h
    cases h
    rfl

theorem leave_probe_pos {calls calls' : Calls} (h : leave calls true = some calls') :
    calls.probes ≠ 0 := by
  intro h0
  rw [leave, if_pos rfl, if_pos h0] at h
  cases h

theorem Inv.permit (h : Inv s) {connection : String}
    (hs : s.step (.permit connection) = some t) : Inv t := by
  have hcounts := And.intro (h.taken connection) (h.leaked connection)
  rcases s.breakers.permit_cases connection s.now h.enabled with
    ⟨hclosed, hp⟩ | ⟨openedAt, hopen, -, hp⟩ | ⟨openedAt, hopen, hfree, hp⟩
  · simp only [step, hp] at hs
    cases hs
    have henter : s.enter connection =
        { s.calls connection with ordinary := (s.calls connection).ordinary + 1 } := by
      rw [enter, hclosed, if_neg (by simp)]
    refine h.of_connection connection rfl (fun c => s.breakers.state_withState connection c _) rfl
      (fun _ => ?_) ?_ (h.limit connection) ?_
    · rw [henter]
      exact h.closed connection hclosed
    · rw [henter]
      exact hcounts.1
    · rw [henter]
      exact hcounts.2
  · simp only [step, hp] at hs
    cases hs
    exact h.of_connection connection rfl (fun c => s.breakers.state_withState connection c _)
      (Function.update_eq_self connection s.calls).symm (h.closed connection) hcounts.1
      (h.limit connection) hcounts.2
  · simp only [step, hp] at hs
    cases hs
    have henter : s.enter connection =
        { s.calls connection with probes := (s.calls connection).probes + 1 } := by
      rw [enter, hopen, if_pos ⟨h.enabled, rfl⟩]
    refine h.of_connection connection rfl (fun c => s.breakers.state_withState connection c _) rfl
      (fun hn => ?_) ?_ hfree ?_
    · dsimp only at hn
      rw [hopen] at hn
      cases hn
    · rw [henter]
      dsimp only
      omega
    · rw [henter]
      dsimp only
      omega

theorem Inv.finish (h : Inv s) {connection : String} {probe : Bool} {call : CallEnd}
    (hclean : s.Clean (.finish connection probe call))
    (hs : s.step (.finish connection probe call) = some t) : Inv t := by
  obtain ⟨calls, hleave, rfl⟩ := Option.map_eq_some_iff.mp hs
  have hprobes := leave_probe hleave
  have hpos : 0 < s.breakers.config.halfOpenRequests := (Nat.zero_le _).trans_lt (h.leaked connection)
  rw [Clean] at hclean
  cases hreport : call.report with
  | nothing =>
    rw [hreport, if_pos rfl] at hclean
    have htaken := h.taken connection
    have hleaked := h.leaked connection
    refine h.of_connection connection rfl (fun c => ?_) rfl (fun hn => ?_) ?_ (h.limit connection) ?_
    · show s.breakers.state c = _
      split
      next hc => rw [hc]
      · rfl
    · obtain ⟨h0, hfree⟩ := h.closed connection hn
      refine ⟨?_, hfree⟩
      rw [hprobes, h0]
      split <;> rfl
    · rw [hprobes]
      split <;> omega
    · cases probe
      · rw [hprobes, if_neg (by decide)]
        exact hleaked
      · have hsome := leave_probe_pos hleave
        have hless := hclean rfl
        rw [hprobes, if_pos rfl]
        omega
  | success =>
    rw [hreport, if_neg (by decide)] at hclean
    have h0 : calls.probes = 0 := by
      rw [hprobes, hclean]
      cases probe <;> rfl
    refine @Inv.of_connection s _ h connection ⟨0, none, 0⟩ calls ?_ (fun c => ?_) rfl
      (fun _ => ⟨h0, rfl⟩) ?_ (Nat.zero_le _) ?_
    · exact s.breakers.success_config connection
    · exact s.breakers.state_success connection c
    · rw [h0]
    · exact (Nat.sub_le _ _).trans_lt hpos
  | failure =>
    rw [hreport, if_neg (by decide)] at hclean
    have h0 : calls.probes = 0 := by
      rw [hprobes, hclean]
      cases probe <;> rfl
    obtain ⟨st, hst, hstate⟩ := s.breakers.state_failure connection s.now h.enabled
    refine @Inv.of_connection s _ h connection st calls ?_ (fun c => ?_) rfl (fun _ => ⟨h0, hst⟩)
      ?_ ?_ ?_
    · exact s.breakers.failure_config connection s.now
    · exact hstate c
    · rw [h0]
      exact Nat.zero_le _
    · rw [hst]
      exact Nat.zero_le _
    · rw [hst]
      exact (Nat.sub_le _ _).trans_lt hpos

theorem Inv.step (h : Inv s) (hclean : s.Clean a) (hs : s.step a = some t) : Inv t := by
  cases a with
  | wait nanos =>
    cases hs
    exact ⟨h.enabled, h.closed, h.taken, h.limit, h.leaked⟩
  | permit connection => exact h.permit hs
  | finish connection probe call => exact h.finish hclean hs

/-- Runs in which a report finds no other probe executing, and in which fewer
probes than there are slots end without one. -/
theorem breaker_safe {config : CircuitBreakerConfig} {b : CircuitBreakers}
    (hb : CircuitBreakers.create config = .ok b) (henabled : config.enabled = true) {s : Guarded}
    (h : machine.Reach Clean (start b) s) : Bounded s ∧ Unwedged s := by
  have hinv : Inv s := h.invariant (start_inv hb henabled) fun _ _ _ hi hc hs => hi.step hc hs
  exact ⟨hinv.bounded, hinv.unwedged⟩

/-- Two slots: one probe is dropped, and the next report frees its slot. -/
def probing : List CircuitAct :=
  [.permit "kafka:main", .finish "kafka:main" false (.kafka (.publishFailed (.messageConnector "down"))),
    .wait 1000000000, .permit "kafka:main", .finish "kafka:main" true (.kafka .dropped),
    .permit "kafka:main", .finish "kafka:main" true (.kafka (.publishFailed (.messageConnector "down"))),
    .wait 1000000000]

def probingConfig (slots : ℕ) : CircuitBreakerConfig := ⟨true, 1, 1, slots⟩

theorem breaker_safe_probing : ∃ b s, CircuitBreakers.create (probingConfig 2) = .ok b ∧
    machine.exec (start b) probing = some s ∧ (s.breakers.permit "kafka:main" s.now).1 = .ok () := by
  refine ⟨_, _, rfl, rfl, ?_⟩
  refine (@breaker_safe (probingConfig 2) _ rfl rfl _ (.of_guarded clean_of_decide probing ?_)).2
    "kafka:main" 1000000000 ?_ ?_ ?_
  · rfl
  · rfl
  · decide
  · rfl

/-- A rejected message: the probe ends without a report and its slot stays taken. -/
def rejected : List CircuitAct :=
  [.permit "kafka:main", .finish "kafka:main" false (.kafka (.publishFailed (.messageConnector "down"))),
    .wait 1000000000, .permit "kafka:main",
    .finish "kafka:main" true (.kafka (.publishFailed (.messageRejected "too large"))),
    .wait 1000000000]

/-- The failure of a call from before the breaker opened frees the slot of a
probe that still executes. -/
def overlapping : List CircuitAct :=
  [.permit "database:main", .permit "database:main",
    .finish "database:main" false (.database (.writeFailed (.databaseConnector "down"))),
    .wait 1000000000, .permit "database:main",
    .finish "database:main" false (.database (.writeFailed (.databaseConnector "down"))),
    .wait 1000000000, .permit "database:main"]

theorem breaker_wedges_and_overruns :
    ∃ b, CircuitBreakers.create (probingConfig 1) = .ok b ∧
      (∃ s, machine.Reachable (start b) s ∧ ¬ Unwedged s) ∧
      ∃ s, machine.Reachable (start b) s ∧ ¬ Bounded s := by
  refine ⟨_, rfl, ⟨_, .of_exec rejected rfl fun _ _ _ => trivial, fun h => ?_⟩,
    ⟨_, .of_exec overlapping rfl fun _ _ _ => trivial, fun h => ?_⟩⟩
  · have hpermit := h "kafka:main" 0 (by decide +kernel) (by decide +kernel) (by decide +kernel)
    cases hpermit
  · have hone := h "database:main"
    revert hone
    decide +kernel

end Guarded

end Jaiba.Engine
