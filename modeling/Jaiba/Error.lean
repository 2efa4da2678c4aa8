import Mathlib.Data.List.Basic

/-!
# Errors of the runtime (`error.rs`)

The variants the modelled code builds or inspects; an error of the operating
system or of SQLite carries its own text.
-/

namespace Jaiba

inductive FlowError where
  | configuration (message : String)
  | processor (processorId message : String)
  | io (text : String)
  | database (text : String)
  | backpressure (capacity : ℕ)
  | server (message : String)
  | channelClosed
  | packetTooLarge (packetBytes budgetBytes : ℕ)
  | memoryCapacity (packetBytes : ℕ)
  | repository (message : String)
  | databaseConnector (message : String)
  | databaseRejected (message : String)
  | messageConnector (message : String)
  | messageRejected (message : String)
  | circuitOpen (connection : String)
  deriving Repr, DecidableEq

namespace FlowError

/-- Whether the engine should retry the packet after this error. -/
def isRetryable : FlowError → Bool
  | .packetTooLarge .. | .databaseRejected _ | .messageRejected _ => false
  | _ => true

/-- `Display`. -/
def text : FlowError → String
  | .configuration m => "configuration error: " ++ m
  | .processor id m => "processor '" ++ id ++ "' failed: " ++ m
  | .io t => t
  | .database t => t
  | .backpressure capacity =>
    "flow queue reached its configured capacity of " ++ toString capacity ++ " packets"
  | .server m => "server error: " ++ m
  | .channelClosed => "processor output channel closed"
  | .packetTooLarge packetBytes budgetBytes =>
    "packet requires " ++ toString packetBytes ++
      " bytes but the configured memory budget is " ++ toString budgetBytes
  | .memoryCapacity packetBytes =>
    "packet memory capacity exhausted while reserving " ++ toString packetBytes ++
      " bytes; reduce packet size, branching or concurrent flows, or increase the budget"
  | .repository m => "repository error: " ++ m
  | .databaseConnector m => "database connector error: " ++ m
  | .databaseRejected m => "database rejected the request: " ++ m
  | .messageConnector m => "message connector error: " ++ m
  | .messageRejected m => "message rejected: " ++ m
  | .circuitOpen connection => "circuit breaker '" ++ connection ++ "' is open"

end FlowError

end Jaiba
