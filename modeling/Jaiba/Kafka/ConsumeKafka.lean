import Jaiba.Engine.Retry
import Jaiba.Lib.Substring

/-!
# The polling loop of `consume_kafka` (`processors/consume_kafka.rs`)

One round of the loop of `execute` is a step on the state of the cycle; the
environment gives each round its clock readings (in nanoseconds), what `recv`
gave within its time and how the emission and the commit ended. The
classification of errors is that of `kafka_support.rs`.
-/

namespace Jaiba.Kafka

/-! ### Errors -/

/-- The codes that the classification names. -/
inductive RDKafkaErrorCode where
  | messageSizeTooLarge | invalidMessage | invalidMessageSize | invalidRecord | invalidTopic
  | invalidTimestamp | invalidRequest | policyViolation | unsupportedForMessageFormat
  | unsupportedCompressionType | unsupportedVersion | topicAuthorizationFailed
  | groupAuthorizationFailed | clusterAuthorizationFailed | transactionalIdAuthorizationFailed
  | delegationTokenAuthorizationFailed | saslAuthenticationFailed | authentication
  | invalidProducerEpoch | fatal
  | brokerTransportFailure | allBrokersDown | operationTimedOut | requestTimedOut | messageTimedOut
  | other (name : String)
  deriving DecidableEq

inductive KafkaErrorKind where
  | messageConsumptionFatal | canceled | clientConfig | clientCreation | subscription | other
  deriving DecidableEq

/-- An error of the client: its variant, `rdkafka_error_code` and `to_string`. -/
structure KafkaError where
  kind : KafkaErrorKind
  code : Option RDKafkaErrorCode
  text : String

def isRejectedCode : RDKafkaErrorCode → Bool
  | .messageSizeTooLarge | .invalidMessage | .invalidMessageSize | .invalidRecord | .invalidTopic
  | .invalidTimestamp | .invalidRequest | .policyViolation | .unsupportedForMessageFormat
  | .unsupportedCompressionType | .unsupportedVersion | .topicAuthorizationFailed
  | .groupAuthorizationFailed | .clusterAuthorizationFailed | .transactionalIdAuthorizationFailed
  | .delegationTokenAuthorizationFailed | .saslAuthenticationFailed | .authentication
  | .invalidProducerEpoch | .fatal => true
  | _ => false

def isJoinCode : RDKafkaErrorCode → Bool
  | .brokerTransportFailure | .allBrokersDown | .operationTimedOut | .requestTimedOut | .messageTimedOut => true
  | _ => false

/-- `text.contains(part)`. -/
def contains (text part : String) : Bool := Lib.Substring.contains part.toList text.toList

namespace KafkaError

def isTransientJoin (e : KafkaError) : Bool :=
  ["BrokerTransportFailure", "AllBrokerConnectionsDown", "AllBrokersDown", "Timed out",
    "Local: Wait timed out"].any (contains e.text) || e.code.any isJoinCode

/-- `kafka_error`. -/
def toFlowError (e : KafkaError) : FlowError :=
  match e.kind with
  | .messageConsumptionFatal | .canceled => .messageRejected e.text
  | .clientConfig | .clientCreation | .subscription => .configuration e.text
  | .other => if e.code.any isRejectedCode then .messageRejected e.text else .messageConnector e.text

end KafkaError

def opensCircuit : FlowError → Bool
  | .messageRejected _ | .configuration _ | .packetTooLarge .. => false
  | _ => true

/-! ### The processor -/

inductive DecodeMode where
  | json | bytes
  deriving DecidableEq

/-- What `from_config` lets through. -/
structure ConsumeKafka where
  connection : String
  topic : String
  groupId : String
  maxPollMessages : ℕ
  maxIdleMs : ℕ
  decode : DecodeMode
  messages_pos : 0 < maxPollMessages
  idle_pos : 0 < maxIdleMs

structure Message where
  partition : ℤ
  offset : ℤ
  key : Option Bytes
  payload : Option Bytes

/-- What the decoding takes from other crates: `serde_json::from_slice` with the text of its error,
and `String::from_utf8_lossy`. -/
structure Decoder where
  fromSlice : Bytes → Except String Json
  fromUtf8Lossy : Bytes → String

inductive Received where
  | message (m : Message)
  | error (e : KafkaError)
  | timeout

/-- One round: the readings at the head of the loop and after the outcome, and the identifier that a
new packet draws. -/
structure Round where
  head : ℕ
  received : Received
  seen : ℕ
  fresh : String
  emitted : Except FlowError Unit
  committed : Except KafkaError Unit

structure Cycle where
  consumed : ℕ
  bytes : ℕ
  idleDeadline : ℕ
  outputs : List (String × DataPacket)
  commits : List (ℤ × ℤ)

/-- The cycle goes on, or `execute` returns; `circuitFailed` tells whether `fail_circuit` was called. -/
inductive Poll where
  | polling (c : Cycle)
  | ended (c : Cycle) (result : Except FlowError Unit) (circuitFailed : Bool)

/-- `Duration::from_millis`. -/
def millis (n : ℕ) : ℕ := n * 1000000

namespace ConsumeKafka

variable (p : ConsumeKafka) (d : Decoder)

def decodePayload (payload : Bytes) : Except FlowError PacketContent :=
  match p.decode with
  | .bytes => .ok (.encoded "application/octet-stream" payload)
  | .json =>
    match d.fromSlice payload with
    | .error message => .error (.messageRejected ("invalid JSON from Kafka: " ++ message))
    | .ok (.array items) => .ok (.records items)
    | .ok other => .ok (.records [other])

def annotate (packet : DataPacket) (m : Message) (elapsed recordCount : ℕ) : DataPacket :=
  let packet := (packet.setAttribute "kafka.connection" p.connection).setAttribute "kafka.topic" p.topic
  let packet := (packet.setAttribute "kafka.group_id" p.groupId).setAttribute "kafka.partition" (toString m.partition)
  let packet := (packet.setAttribute "kafka.offset" (toString m.offset)).setAttribute "kafka.messages" "1"
  let packet := packet.setAttribute "record.count" (toString recordCount)
  let packet := match m.key with
    | some key => packet.setAttribute "kafka.key" (d.fromUtf8Lossy key)
    | none => packet
  packet.setAttribute "kafka.duration_ms" (toString (elapsed / millis 1))

def recordCount : PacketContent → ℕ
  | .records records => records.length
  | .encoded .. => 1

/-- What is emitted for a message and where: a payload that does not decode goes to `failure`. -/
def packetOf (fresh : String) (elapsed : ℕ) (m : Message) : String × DataPacket :=
  let payload := m.payload.getD []
  match p.decodePayload d payload with
  | .ok content =>
    ("success", p.annotate d { DataPacket.empty fresh with content := content } m elapsed (recordCount content))
  | .error e =>
    let packet := p.annotate d
      { DataPacket.empty fresh with content := .encoded "application/octet-stream" payload } m elapsed 0
    ("failure", (packet.setAttribute "error.kind" "poison").setAttribute "error.message" e.text)

/-- `idle_deadline = Instant::now() + max_idle_ms`. -/
def renewed (now : ℕ) : ℕ := now + millis p.maxIdleMs

/-- A message is emitted, then its offset is committed, then the cycle goes on. -/
def onMessage (started : ℕ) (r : Round) (m : Message) (c : Cycle) : Poll :=
  let c := { c with bytes := c.bytes + (m.payload.getD []).length }
  match r.emitted with
  | .error e => .ended c (.error e) true
  | .ok () =>
    let c := { c with outputs := c.outputs ++ [p.packetOf d r.fresh (r.seen - started) m] }
    match r.committed with
    | .error e => .ended c (.error e.toFlowError) (opensCircuit e.toFlowError)
    | .ok () => .polling { c with
        commits := c.commits ++ [(m.partition, m.offset)]
        consumed := c.consumed + 1
        idleDeadline := p.renewed r.seen }

/-- One round of the loop. -/
def poll (started : ℕ) (r : Round) (c : Cycle) : Poll :=
  if p.maxPollMessages ≤ c.consumed ∨ c.idleDeadline - r.head = 0 then .ended c (.ok ()) false
  else match r.received with
    | .message m => p.onMessage d started r m c
    | .error e =>
      -- while nothing is consumed a transient error renews the idle deadline
      if e.isTransientJoin && c.consumed == 0 then .polling { c with idleDeadline := p.renewed r.seen }
      else .ended c (.error e.toFlowError) (opensCircuit e.toFlowError)
    | .timeout => if c.consumed = 0 then .polling c else .ended c (.ok ()) false

end ConsumeKafka

/-- The readings before the loop and its rounds. -/
structure Session where
  started : ℕ
  opened : ℕ
  round : ℕ → Round

/-- The clock goes forward, by a millisecond at least while a round waits. -/
structure Session.Advances (s : Session) : Prop where
  opened_le : s.opened ≤ (s.round 0).head
  wait : ∀ i, (s.round i).head + millis 1 ≤ (s.round i).seen
  next : ∀ i, (s.round i).seen ≤ (s.round (i + 1)).head

namespace ConsumeKafka

variable (p : ConsumeKafka) (d : Decoder) (s : Session)

def start : Cycle := ⟨0, 0, p.renewed s.opened, [], []⟩

/-- The loop after so many rounds. -/
def after : ℕ → Poll
  | 0 => .polling (p.start s)
  | n + 1 =>
    match after n with
    | .polling c => p.poll d s.started (s.round n) c
    | ended => ended

end ConsumeKafka

end Jaiba.Kafka
