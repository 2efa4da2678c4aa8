import Mathlib.Logic.Function.Basic
import Std.Data.String.ToNat
import Jaiba.Lib.Machine
import Jaiba.Plugin.Framing

/-!
# Calls of an external plugin (`processors/external_plugin.rs`)

Calls draw their ids, wait for the mutex of the process slot and hold it while
they talk to the process, one of them at a time; any of them may fail, time out
or be dropped midway. Every process keeps what it was asked and the lines it
wrote in one log, in the order in which they were written.
-/

namespace Jaiba.Plugin
open Jaiba.Lib

variable (requests : Serde PluginRequest) (responses : Serde PluginResponse)

/-- The frame of a request. -/
def hostEncode (request : PluginRequest) : Except String Bytes := do
  let encoded ← requests.toVec request
  if maxFrameBytes < encoded.length then
    .error ("el paquete excede " ++ toString maxFrameBytes ++ " bytes del protocolo de plugins")
  else .ok (encoded ++ [newline])

/-- The checks of a response for a request. -/
def checkResponse (response : PluginResponse) (request : PluginRequest) : Except String PluginResponse :=
  if response.protocolVersion ≠ protocolVersion then
    .error ("el plugin usa el protocolo " ++ toString response.protocolVersion.toNat ++
      " y Jaiba el " ++ toString protocolVersion.toNat)
  else do
    (validateResponse response).mapError FrameError.text
    if response.requestId ≠ request.requestId then
      .error ("el plugin respondió a '" ++ response.requestId ++ "' y se esperaba '" ++
        request.requestId ++ "'")
    else
      .ok response

/-- The checks of a call on the line that it reads. -/
def hostCheck (line : Bytes) (request : PluginRequest) : Except String PluginResponse :=
  if maxFrameBytes < line.length then
    .error ("la respuesta del plugin excede " ++ toString maxFrameBytes ++ " bytes")
  else do
    let response ← (responses.fromSlice line).mapError fun error => "el plugin respondió JSON inválido: " ++ error
    checkResponse response request

/-- `transact` writes the frame and checks the next line of the process. -/
theorem transact_frame {process : PluginProcess} {request : PluginRequest} {body rest : Bytes}
    (h : Frame process.stdout.bytes body rest) :
    (transact requests responses process request).map Prod.fst =
      (hostEncode requests request).bind fun _ => hostCheck responses body request := by
  obtain ⟨hline, -⟩ := hostLine_of_frame h
  have hbody : ¬ maxFrameBytes < body.length := by
    have hlimit := h.limit
    omega
  unfold transact hostEncode hostCheck
  cases hencoded : requests.toVec request with
  | error e => rfl
  | ok encoded =>
    simp only [bind, Except.bind]
    by_cases hlimit : maxFrameBytes < encoded.length
    · rw [if_pos hlimit, if_pos hlimit]
      rfl
    · rw [if_neg hlimit, if_neg hlimit, hline, if_neg (not_not.mpr List.getLast?_concat),
        List.dropLast_concat]
      dsimp only
      rw [if_neg hbody]
      cases hparsed : responses.fromSlice body with
      | error e => rfl
      | ok response =>
        simp only [Except.mapError, checkResponse]
        by_cases hversion : response.protocolVersion ≠ protocolVersion
        · rw [if_pos hversion, if_pos hversion]
          rfl
        · rw [if_neg hversion, if_neg hversion]
          cases hvalid : validateResponse response with
          | error e => rfl
          | ok valid =>
            simp only [bind, Except.bind]
            by_cases hid : response.requestId ≠ request.requestId
            · rw [if_pos hid, if_pos hid]
              rfl
            · rw [if_neg hid, if_neg hid]
              rfl

theorem hostCheck_ok {line : Bytes} {request : PluginRequest} {response : PluginResponse}
    (h : hostCheck responses line request = .ok response) : response.requestId = request.requestId := by
  unfold hostCheck at h
  split at h
  · cases h
  · obtain ⟨parsed, -, h⟩ := bind_ok h
    unfold checkResponse at h
    split at h
    · cases h
    · obtain ⟨_, -, h⟩ := bind_ok h
      split at h
      · cases h
      next hid =>
      cases h
      exact not_not.mp hid

/-! ### Processes -/

inductive Event where
  | asked (number : ℕ) (request : PluginRequest)
  | answered (line : Bytes)

structure Process where
  log : List Event
  consumed : ℕ

/-- The line after `k` others, and where it stands in the log. -/
def nthLine : List Event → ℕ → Option (ℕ × Bytes)
  | [], _ => none
  | .asked _ _ :: log, k => (nthLine log k).map fun found => (found.1 + 1, found.2)
  | .answered line :: _, 0 => some (0, line)
  | .answered _ :: log, k + 1 => (nthLine log k).map fun found => (found.1 + 1, found.2)

theorem getElem?_of_nthLine {log : List Event} {k i : ℕ} {line : Bytes} (h : nthLine log k = some (i, line)) :
    log[i]? = some (.answered line) := by
  induction log generalizing k i with
  | nil => cases h
  | cons event log ih =>
    cases event with
    | asked number request =>
      obtain ⟨found, hfound, heq⟩ := Option.map_eq_some_iff.mp h
      cases heq
      exact ih hfound
    | answered first =>
      cases k with
      | zero =>
        cases h
        rfl
      | succ k =>
        obtain ⟨found, hfound, heq⟩ := Option.map_eq_some_iff.mp h
        cases heq
        exact ih hfound

/-! ### The host -/

/-- `request_id`, with the number that the counter gave. -/
def requestId (plugin : String) (number : ℕ) : String := plugin ++ "-" ++ toString number

theorem requestId_inj {plugin : String} {m n : ℕ} (h : requestId plugin m = requestId plugin n) : m = n := by
  refine Nat.repr_injective ?_
  rw [requestId, requestId, String.append_right_inj] at h
  exact h

/-- A call of `execute`: the number it drew, and the rest of its request. -/
structure Call where
  number : ℕ
  body : PluginRequest

def Call.request (plugin : String) (c : Call) : PluginRequest :=
  { c.body with protocolVersion := protocolVersion, requestId := requestId plugin c.number }

/-- The request of the handshake. -/
def describeRequest (plugin : String) (number : ℕ) : PluginRequest :=
  ⟨protocolVersion, requestId plugin number, .describe, .null, none, none⟩

/-- How far the call that holds the mutex has come: it starts a process, writes or awaits the
handshake on it, writes or awaits its own request. -/
inductive Stage where
  | spawning
  | describing (pid number : ℕ)
  | described (pid number asked : ℕ)
  | writing (pid : ℕ)
  | reading (pid asked : ℕ)

/-- The process that a call uses. -/
def Stage.pid? : Stage → Option ℕ
  | .spawning => none
  | .describing pid _ | .described pid _ _ | .writing pid | .reading pid _ => some pid

/-- A call that returned a response: its request and the line of the response, each with its place
in the log of the process. -/
structure Return where
  pid : ℕ
  call : Call
  response : PluginResponse
  line : Bytes
  asked : ℕ
  answered : ℕ

/-- The slot and the counter; besides them, all processes that were started, the calls that
returned a response, and the processes on which a call failed, timed out or was dropped. -/
structure Host where
  nextRequest : ℕ
  waiting : List Call
  holder : Option (Call × Stage)
  slot : Option ℕ
  inFlight : Bool
  processes : ℕ → Process
  spawned : ℕ
  returns : List Return
  spoiled : List ℕ

namespace Host

def start : Host where
  nextRequest := 1
  waiting := []
  holder := none
  slot := none
  inFlight := false
  processes := fun _ => ⟨[], 0⟩
  spawned := 0
  returns := []
  spoiled := []

/-- `next_request.fetch_add(1)`. -/
def counted (s : Host) : ℕ := (s.nextRequest + 1) % 18446744073709551616

/-- `execute` builds its request. -/
def draw (s : Host) (body : PluginRequest) : Host :=
  { s with nextRequest := s.counted, waiting := s.waiting ++ [⟨s.nextRequest, body⟩] }

/-- A waiting call takes the mutex; a process left in flight is not used again. -/
def lock (s : Host) (i : ℕ) : Option Host :=
  match s.holder, s.waiting[i]? with
  | none, some call =>
    match if s.inFlight then none else s.slot with
    | none => some { s with
        waiting := s.waiting.eraseIdx i, slot := none, inFlight := false, holder := some (call, .spawning) }
    | some pid => some { s with
        waiting := s.waiting.eraseIdx i, inFlight := true, holder := some (call, .writing pid) }
  | _, _ => none

/-- A waiting call is dropped. -/
def leave (s : Host) (i : ℕ) : Host := { s with waiting := s.waiting.eraseIdx i }

/-- The program is started, and the handshake draws its id. -/
def spawn (s : Host) : Option Host :=
  match s.holder with
  | some (call, .spawning) => some { s with
      nextRequest := s.counted, spawned := s.spawned + 1,
      holder := some (call, .describing s.spawned s.nextRequest) }
  | _ => none

/-- The program does not start. -/
def spawnFails (s : Host) : Option Host :=
  match s.holder with
  | some (_, .spawning) => some { s with holder := none }
  | _ => none

def ask (s : Host) (pid number : ℕ) (request : PluginRequest) : ℕ → Process :=
  Function.update s.processes pid ⟨(s.processes pid).log ++ [.asked number request], (s.processes pid).consumed⟩

/-- The call fails on its process: it releases the mutex and the process is gone. -/
def failed (s : Host) (pid : ℕ) : Host :=
  { s with holder := none, slot := none, inFlight := false, spoiled := pid :: s.spoiled }

/-- The call writes its request, unless it does not fit a frame. -/
def write (plugin : String) (s : Host) : Option Host :=
  match s.holder with
  | some (call, .describing pid number) =>
    match hostEncode requests (describeRequest plugin number) with
    | .error _ => some (s.failed pid)
    | .ok _ => some { s with
        processes := s.ask pid number (describeRequest plugin number)
        holder := some (call, .described pid number (s.processes pid).log.length) }
  | some (call, .writing pid) =>
    match hostEncode requests (call.request plugin) with
    | .error _ => some (s.failed pid)
    | .ok _ => some { s with
        processes := s.ask pid call.number (call.request plugin)
        holder := some (call, .reading pid (s.processes pid).log.length) }
  | _ => none

/-- The answer to the handshake. -/
def describes (plugin : String) (response : PluginResponse) : Bool :=
  match response.result with
  | some (.descriptor descriptor) => descriptor.id = plugin
  | _ => false

def consume (s : Host) (pid : ℕ) : ℕ → Process :=
  Function.update s.processes pid ⟨(s.processes pid).log, (s.processes pid).consumed + 1⟩

/-- The call reads the next line of its process. -/
def read (plugin : String) (s : Host) : Option Host :=
  match s.holder with
  | some (call, .described pid number _) =>
    (nthLine (s.processes pid).log (s.processes pid).consumed).map fun found =>
      match hostCheck responses found.2 (describeRequest plugin number) with
      | .error _ => s.failed pid
      | .ok response =>
        if describes plugin response then { s with
          processes := s.consume pid, slot := some pid, inFlight := true, holder := some (call, .writing pid) }
        else s.failed pid
  | some (call, .reading pid asked) =>
    (nthLine (s.processes pid).log (s.processes pid).consumed).map fun found =>
      match hostCheck responses found.2 (call.request plugin) with
      | .error _ => s.failed pid
      | .ok response => { s with
          processes := s.consume pid, inFlight := false, holder := none
          returns := ⟨pid, call, response, found.2, asked, found.1⟩ :: s.returns }
  | _ => none

/-- A write or a read fails, the stream ends, or the time is over. -/
def fail (s : Host) : Option Host :=
  (s.holder.bind fun held => held.2.pid?).map s.failed

/-- The call is dropped while it holds the mutex; `in_flight` stays as it was. -/
def cancel (s : Host) : Option Host :=
  s.holder.map fun held => { s with holder := none, spoiled := held.2.pid?.toList ++ s.spoiled }

/-- A process writes a line. -/
def answer (s : Host) (pid : ℕ) (line : Bytes) : Host :=
  { s with
    processes := Function.update s.processes pid
      ⟨(s.processes pid).log ++ [.answered line], (s.processes pid).consumed⟩ }

end Host

inductive Action where
  | draw (body : PluginRequest)
  | lock (i : ℕ)
  | leave (i : ℕ)
  | spawn
  | spawnFails
  | write
  | read
  | fail
  | cancel
  | answer (pid : ℕ) (line : Bytes)

def Host.step (plugin : String) (s : Host) : Action → Option Host
  | .draw body => some (s.draw body)
  | .lock i => s.lock i
  | .leave i => some (s.leave i)
  | .spawn => s.spawn
  | .spawnFails => s.spawnFails
  | .write => s.write requests plugin
  | .read => s.read responses plugin
  | .fail => s.fail
  | .cancel => s.cancel
  | .answer pid line => if pid < s.spawned then some (s.answer pid line) else none

def host (plugin : String) : Machine Host Action := ⟨Host.step requests responses plugin⟩

end Jaiba.Plugin
