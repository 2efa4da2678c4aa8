import Jaiba.Config
import Jaiba.Error
import Jaiba.Packet

/-!
# Retries (`engine/executor/retry.rs`)

`execute_with_retry` as the list of emissions that it makes and its result. A
processor is a finite program of emits: what one attempt emits, and how it ends.
Provenance events, metrics and the delays between attempts are left out.
-/

namespace Jaiba

/-- `attributes.insert`. -/
def DataPacket.setAttribute (p : DataPacket) (key value : String) : DataPacket :=
  { p with attributes := (key, value) :: p.attributes.filter fun kv => kv.1 ≠ key }

namespace Engine

/-- One call of `processor.execute`, a time-out included. -/
structure Attempt where
  emits : List (String × DataPacket)
  result : Except FlowError Unit

/-- What a task emits, in order, and how it completes: `failure` is a definitive
failure of the packet, an error stops the flow. -/
structure Program where
  emits : List (String × DataPacket)
  outcome : Except FlowError (Option (String × ℕ))

/-- The definitive failure of a packet: it leaves by `failure`. -/
def failPacket (processorId : String) (packet : DataPacket) (error : FlowError) : Program where
  emits := [("failure", (packet.setAttribute "error.processor" processorId).setAttribute
    "error.message" error.text)]
  outcome := .ok (some (error.text, packet.attempt))

/-- The end of the loop after an attempt that is not repeated. -/
def Attempt.close (attempt : Attempt) (processorId : String) (packet : DataPacket) : Program :=
  match attempt.result with
  | .ok _ => ⟨attempt.emits, .ok none⟩
  | .error (.packetTooLarge packetBytes budgetBytes) =>
    ⟨attempt.emits, .error (.packetTooLarge packetBytes budgetBytes)⟩
  | .error e =>
    let failed := failPacket processorId packet e
    ⟨attempt.emits ++ failed.emits, failed.outcome⟩

/-- An attempt that is repeated while attempts are left. -/
def Attempt.retryable (attempt : Attempt) : Bool :=
  match attempt.result with
  | .ok _ => false
  | .error e => e.isRetryable

/-- The loop, `left` being `maximum_attempts` minus the attempts made. -/
def retryLoop (execute : DataPacket → Attempt) (processorId : String) :
    ℕ → DataPacket → Program
  | 0, packet => (execute packet).close processorId packet
  | left + 1, packet =>
    if (execute packet).retryable then
      let rest := retryLoop execute processorId left { packet with attempt := packet.attempt + 1 }
      ⟨(execute packet).emits ++ rest.emits, rest.outcome⟩
    else (execute packet).close processorId packet

def executeWithRetry (execute : DataPacket → Attempt) (processorId : String)
    (retry : RetryConfig) (packet : DataPacket) : Program :=
  retryLoop execute processorId (retry.maximumAttempts - packet.attempt) packet

theorem Attempt.close_outcome {attempt : Attempt}
    (h : ∀ b m, attempt.result ≠ .error (.packetTooLarge b m)) (processorId : String)
    (packet : DataPacket) : ∃ failure, (attempt.close processorId packet).outcome = .ok failure := by
  unfold Attempt.close
  split
  · exact ⟨none, rfl⟩
  next b m hr => exact absurd hr (h b m)
  · exact ⟨_, rfl⟩

/-- A program stops the flow only through a packet that is too large. -/
theorem executeWithRetry_outcome {execute : DataPacket → Attempt}
    (h : ∀ p b m, (execute p).result ≠ .error (.packetTooLarge b m)) (processorId : String)
    (retry : RetryConfig) (packet : DataPacket) :
    ∃ failure, (executeWithRetry execute processorId retry packet).outcome = .ok failure := by
  unfold executeWithRetry
  generalize retry.maximumAttempts - packet.attempt = left
  induction left generalizing packet with
  | zero => exact Attempt.close_outcome (h packet) processorId packet
  | succ left ih =>
    unfold retryLoop
    split_ifs
    · exact ih _
    · exact Attempt.close_outcome (h packet) processorId packet

end Engine

end Jaiba
