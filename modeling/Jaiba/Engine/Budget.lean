import Jaiba.Engine.Retry
import Jaiba.Engine.Validation

/-!
# Retries of each processor

The attempts are counted on the packet, which takes them along when it is
emitted; a processor therefore retries a packet as often as its policy says only
if nothing upstream was retried.
-/

namespace Jaiba.Engine

/-! ### Executions and delays -/

/-- The packets that `retryLoop` gives to `execute`, in order. -/
def rounds (execute : DataPacket → Attempt) : ℕ → DataPacket → List DataPacket
  | 0, packet => [packet]
  | left + 1, packet =>
    if (execute packet).retryable then
      packet :: rounds execute left { packet with attempt := packet.attempt + 1 }
    else [packet]

/-- The executions of `executeWithRetry`. -/
def executions (execute : DataPacket → Attempt) (retry : RetryConfig) (packet : DataPacket) : List DataPacket :=
  rounds execute (retry.maximumAttempts - packet.attempt) packet

/-- The delay before an attempt; the arithmetic saturates. -/
def delayMs (retry : RetryConfig) (attempt : ℕ) : ℕ :=
  min (min (retry.initialDelayMs * min (2 ^ (attempt - 1)) 18446744073709551615) 18446744073709551615)
    retry.maximumDelayMs

def delays (execute : DataPacket → Attempt) (retry : RetryConfig) : ℕ → DataPacket → List ℕ
  | 0, _ => []
  | left + 1, packet =>
    if (execute packet).retryable then
      delayMs retry (packet.attempt + 1) ::
        delays execute retry left { packet with attempt := packet.attempt + 1 }
    else []

/-- All executions but the last one emit and are repeated; the last one closes the program. -/
theorem retryLoop_rounds (execute : DataPacket → Attempt) (processorId : String) (left : ℕ)
    (packet : DataPacket) : ∃ repeated last, rounds execute left packet = repeated ++ [last] ∧
      retryLoop execute processorId left packet =
        ⟨(repeated.flatMap fun p => (execute p).emits) ++ ((execute last).close processorId last).emits,
          ((execute last).close processorId last).outcome⟩ := by
  induction left generalizing packet with
  | zero => exact ⟨[], packet, rfl, rfl⟩
  | succ left ih =>
    unfold rounds retryLoop
    split_ifs
    · obtain ⟨repeated, last, hrounds, hloop⟩ := ih { packet with attempt := packet.attempt + 1 }
      refine ⟨packet :: repeated, last, ?_, ?_⟩
      · rw [hrounds, List.cons_append]
      · rw [hloop, List.flatMap_cons, List.append_assoc]
    · exact ⟨[], packet, rfl, rfl⟩

/-- Where every execution fails with a retryable error, all attempts that are left are made. -/
theorem length_rounds {execute : DataPacket → Attempt} {left : ℕ} {packet : DataPacket}
    (h : ∀ p ∈ rounds execute left packet, (execute p).retryable = true) :
    (rounds execute left packet).length = left + 1 := by
  induction left generalizing packet with
  | zero => rfl
  | succ left ih =>
    unfold rounds at h ⊢
    have hfirst : (execute packet).retryable = true := by
      refine h packet ?_
      split_ifs
      · exact List.mem_cons_self
      · exact List.mem_singleton_self packet
    rw [if_pos hfirst] at h ⊢
    rw [List.length_cons, ih fun p hp => h p (List.mem_cons_of_mem _ hp)]

theorem delays_le {execute : DataPacket → Attempt} {retry : RetryConfig} {left : ℕ} {packet : DataPacket}
    {delay : ℕ} (h : delay ∈ delays execute retry left packet) : delay ≤ retry.maximumDelayMs := by
  induction left generalizing packet with
  | zero => cases h
  | succ left ih =>
    unfold delays at h
    split_ifs at h
    · rcases List.mem_cons.mp h with rfl | h
      · exact Nat.min_le_right _ _
      · exact ih h
    · cases h

/-! ### The way of a packet -/

/-- The packets that come to a processor: a seed, what is emitted upstream by an execution of any
behaviour, and a dead letter that is requeued. -/
inductive Arrives (config : FlowConfig) : String → DataPacket → Prop where
  | seed {id : String} (packetId : String) (hstart : ∀ k ∈ config.connections, k.target ≠ id) :
    Arrives config id (DataPacket.empty packetId)
  | routed {id relationship : String} {packet emitted : DataPacket} {processor : ProcessorConfig}
    {k : ConnectionConfig} (harrives : Arrives config id packet)
    (hdefined : config.definition? id = some processor) (execute : DataPacket → Attempt)
    (hemitted : (relationship, emitted) ∈ (executeWithRetry execute id processor.retry packet).emits)
    (hrouted : k ∈ config.outgoing id relationship) : Arrives config k.target emitted
  | requeued {id : String} {packet : DataPacket} (harrives : Arrives config id packet) :
    Arrives config id { packet with attempt := 0 }

/-- A packet at a processor of an accepted flow. -/
structure Arrival (config : FlowConfig) where
  id : String
  processor : ProcessorConfig
  packet : DataPacket
  accepted : Accepted config
  defined : config.definition? id = some processor
  history : Arrives config id packet

/-- The initial attempt and the retries of the policy, none of them delayed for longer than it says. -/
structure Budgeted (execute : DataPacket → Attempt) (retry : RetryConfig) (packet : DataPacket) : Prop where
  executions : (executions execute retry packet).length = retry.maximumAttempts + 1
  delays : ∀ delay ∈ delays execute retry (retry.maximumAttempts - packet.attempt) packet,
    delay ≤ retry.maximumDelayMs

/-- A packet that always fails has the budget of its processor exactly where it brings no attempt,
or the policy has no retry. -/
theorem retry_budget_iff {config : FlowConfig} (arrival : Arrival config) (execute : DataPacket → Attempt)
    (hfails : ∀ p ∈ executions execute arrival.processor.retry arrival.packet, (execute p).retryable = true) :
    Budgeted execute arrival.processor.retry arrival.packet ↔
      arrival.packet.attempt = 0 ∨ arrival.processor.retry.maximumAttempts = 0 := by
  have hlength : (executions execute arrival.processor.retry arrival.packet).length =
      arrival.processor.retry.maximumAttempts - arrival.packet.attempt + 1 := length_rounds hfails
  constructor
  · intro h
    have hbudget := h.executions
    omega
  · intro h
    refine ⟨?_, fun delay hdelay => delays_le hdelay⟩
    omega

/-! ### A retry upstream -/

/-- `pairFlow`, each processor with one retry. -/
def retryFlow : FlowConfig :=
  exampleFlow 1 2 [{ exampleProcessor "a" with retry := ⟨1, 250, 30000⟩ },
    { exampleProcessor "b" with retry := ⟨1, 250, 30000⟩ }] [exampleConnection "a" "b"]

/-- Fails once, then hands the packet on. -/
def failOnce (p : DataPacket) : Attempt :=
  if p.attempt = 0 then ⟨[], .error (.io "connection reset")⟩ else ⟨[("success", p)], .ok ()⟩

def failAlways (_ : DataPacket) : Attempt := ⟨[], .error (.io "connection reset")⟩

theorem retryFlow_accepted : Accepted retryFlow := ⟨.asStored, rfl⟩

theorem retryFlow_seed : Arrives retryFlow "a" (DataPacket.empty "p1") :=
  .seed "p1" (by decide)

/-- The seed at the first processor. -/
def seedArrival : Arrival retryFlow where
  id := "a"
  processor := { exampleProcessor "a" with retry := ⟨1, 250, 30000⟩ }
  packet := DataPacket.empty "p1"
  accepted := retryFlow_accepted
  defined := rfl
  history := retryFlow_seed

/-- The packet at the second processor, after one retry at the first. -/
def retriedArrival : Arrival retryFlow where
  id := "b"
  processor := { exampleProcessor "b" with retry := ⟨1, 250, 30000⟩ }
  packet := { DataPacket.empty "p1" with attempt := 1 }
  accepted := retryFlow_accepted
  defined := rfl
  history := @Arrives.routed _ "a" "success" (DataPacket.empty "p1") _ _ (exampleConnection "a" "b")
    retryFlow_seed rfl failOnce (List.mem_singleton_self _) (List.mem_singleton_self _)

theorem failAlways_executions {config : FlowConfig} (arrival : Arrival config) :
    ∀ p ∈ executions failAlways arrival.processor.retry arrival.packet, (failAlways p).retryable = true :=
  fun _ _ => rfl

theorem retry_budget_seed :
    seedArrival.packet.attempt = 0 ∧ Budgeted failAlways seedArrival.processor.retry seedArrival.packet :=
  ⟨rfl, (retry_budget_iff seedArrival failAlways (failAlways_executions seedArrival)).mpr (.inl rfl)⟩

/-- One execution, where the policy has one retry. -/
theorem retry_budget_spent :
    ¬ ∀ (config : FlowConfig) (arrival : Arrival config) (execute : DataPacket → Attempt),
      (∀ p ∈ executions execute arrival.processor.retry arrival.packet, (execute p).retryable = true) →
        Budgeted execute arrival.processor.retry arrival.packet := by
  intro hclaim
  have hbudget := (hclaim retryFlow retriedArrival failAlways (failAlways_executions retriedArrival)).executions
  exact absurd hbudget (by decide)

end Jaiba.Engine
