import Jaiba.Json
import Jaiba.Lib.Except
import Jaiba.Packet
import Jaiba.Lib.Reader

/-!
# Frames of isolated plugins (`jaiba-plugin-sdk/src/lib.rs`, `processors/external_plugin.rs`)

Each envelope is one line of JSON. The SDK reads a line from the buffer of a
blocking reader, the runtime's host with a limited `read_until`; both bound the
line by the same number of bytes.
-/

namespace Jaiba.Plugin
open Jaiba.Lib

def protocolVersion : UInt16 := 1
def maxFrameBytes : ℕ := 8 * 1024 * 1024
def newline : UInt8 := 10

inductive RequestOperation where
  | describe | execute | shutdown

inductive PluginPacket where
  | records (records : List Json)
  | bytes (content : Bytes) (mediaType : Option String)

structure PluginExecutionContext where
  flowId : String
  processorId : String
  attributes : List (String × String)

structure PluginDescriptor where
  id : String
  version : String
  displayName : String
  category : String
  defaultPort : UInt16
  capabilities : List String

structure PluginRequest where
  protocolVersion : UInt16
  requestId : String
  operation : RequestOperation
  configuration : Json
  packet : Option PluginPacket
  context : Option PluginExecutionContext

inductive PluginResult where
  | descriptor (descriptor : PluginDescriptor)
  | packets (packets : List PluginPacket)
  | shutdown

structure ProtocolError where
  code : String
  message : String
  retryable : Bool

structure PluginResponse where
  protocolVersion : UInt16
  requestId : String
  result : Option PluginResult
  error : Option ProtocolError

inductive FrameError where
  | tooLarge
  | io (message : String)
  | json (message : String)
  | version (received : UInt16)
  | invalidResponse
  | mismatchedRequest (expected received : String)
  deriving DecidableEq

def FrameError.text : FrameError → String
  | .tooLarge => "isolated plugin frame exceeds " ++ toString maxFrameBytes ++ " bytes"
  | .io message => "isolated plugin I/O failed: " ++ message
  | .json message => "isolated plugin sent invalid JSON: " ++ message
  | .version received => "unsupported plugin protocol version " ++ toString received.toNat ++
      "; expected " ++ toString protocolVersion.toNat
  | .invalidResponse => "plugin response must contain exactly one of result or error"
  | .mismatchedRequest expected received =>
    "plugin response id '" ++ received ++ "' does not match request '" ++ expected ++ "'"

class VersionedEnvelope (T : Type) where
  protocolVersion : T → UInt16

instance : VersionedEnvelope PluginRequest := ⟨PluginRequest.protocolVersion⟩
instance : VersionedEnvelope PluginResponse := ⟨PluginResponse.protocolVersion⟩

/-! ### The SDK -/

section
variable {T : Type} (serde : Serde T)

/-- What `writer` holds after the frame. -/
def writeFrame (writer : Bytes) (message : T) : Except FrameError Bytes := do
  let encoded ← (serde.toVec message).mapError FrameError.json
  if maxFrameBytes < encoded.length then
    .error .tooLarge
  else
    .ok (writer ++ encoded ++ [newline])

/-- The loop of `read_frame` over the buffers of the reader. -/
def readLine (reader : Reader) (encoded : Bytes) : Except FrameError (Bytes × Reader) :=
  let available := reader.fillBuf
  if _h : available = [] then .ok (encoded, reader)
  else
    let chunkLength := (available.findIdx? (· == newline)).elim available.length (· + 1)
    if maxFrameBytes + 1 < encoded.length + chunkLength then .error .tooLarge
    else
      let encoded' := encoded ++ available.take chunkLength
      let reader' := reader.consume chunkLength
      if encoded'.getLast? = some newline then .ok (encoded', reader') else readLine reader' encoded'
termination_by reader.bytes.length
decreasing_by
  have hchunk : chunkLength = (upTo newline available).length := lineLength_eq available
  have hpos : 0 < (upTo newline available).length :=
    List.length_pos_iff.mpr fun hnil => _h (upTo_eq_nil_iff.mp hnil)
  have hle : chunkLength ≤ available.length := hchunk ▸ length_upTo_le available
  obtain ⟨rest, hrest⟩ := reader.bytes_eq_fillBuf_append
  have hlength : reader.bytes.length = available.length + rest.length := by
    rw [hrest, List.length_append]
  rw [Reader.bytes_consume hle, List.length_drop]
  omega

variable [VersionedEnvelope T]

def decodeFrame (encoded : Bytes) : Except FrameError T := do
  let message ← (serde.fromSlice encoded).mapError FrameError.json
  if VersionedEnvelope.protocolVersion message ≠ protocolVersion then
    .error (.version (VersionedEnvelope.protocolVersion message))
  else
    .ok message

/-- `none` at the end of the stream. -/
def readFrame (reader : Reader) : Except FrameError (Option T × Reader) := do
  let (encoded, reader) ← readLine reader []
  if encoded = [] then
    .ok (none, reader)
  else if maxFrameBytes + 1 < encoded.length ∨ encoded.getLast? ≠ some newline then
    .error .tooLarge
  else
    let message ← decodeFrame serde encoded.dropLast
    .ok (some message, reader)

/-- The loop's line and the rest behind it depend on the bytes alone. -/
theorem readLine_eq (reader : Reader) (encoded : Bytes) (hlimit : encoded.length ≤ maxFrameBytes + 1) :
    if maxFrameBytes + 1 < encoded.length + (upTo newline reader.bytes).length then
      readLine reader encoded = .error .tooLarge
    else ∃ reader' : Reader, readLine reader encoded = .ok (encoded ++ upTo newline reader.bytes, reader') ∧
      reader'.bytes = reader.bytes.drop (upTo newline reader.bytes).length := by
  induction hn : reader.bytes.length using Nat.strong_induction_on generalizing reader encoded with
  | _ n ih =>
  subst hn
  rw [readLine]
  dsimp only
  rw [lineLength_eq, take_lineLength]
  by_cases hne : reader.fillBuf = []
  · rw [(Reader.fillBuf_eq_nil_iff reader).mp hne, upTo, List.length_nil, if_neg (by omega),
      dif_pos hne, List.append_nil]
    exact ⟨reader, rfl, (Reader.fillBuf_eq_nil_iff reader).mp hne⟩
  rw [dif_neg hne]
  have hline : upTo newline reader.fillBuf ≠ [] := fun hnil => hne (upTo_eq_nil_iff.mp hnil)
  have hrest := Reader.bytes_consume (@length_upTo_le newline reader.fillBuf)
  have hend : (encoded ++ upTo newline reader.fillBuf).getLast? = some newline ↔
      newline ∈ reader.fillBuf := by
    rw [List.getLast?_append_of_ne_nil _ hline, getLast?_upTo]
  by_cases hmem : newline ∈ reader.fillBuf
  · -- the buffer holds the end of the line
    rw [Reader.upTo_bytes_of_mem hmem, if_pos (hend.mpr hmem)]
    by_cases hlong : maxFrameBytes + 1 < encoded.length + (upTo newline reader.fillBuf).length
    · rw [if_pos hlong, if_pos hlong]
    · rw [if_neg hlong, if_neg hlong]
      exact ⟨_, rfl, hrest⟩
  · -- the whole buffer belongs to the line
    rw [Reader.upTo_bytes_of_not_mem hmem, if_neg fun h => hmem (hend.mp h), upTo_of_not_mem hmem,
      List.length_append, ← Nat.add_assoc]
    rw [upTo_of_not_mem hmem] at hrest
    obtain ⟨rest, hbytes⟩ := reader.bytes_eq_fillBuf_append
    have hlength : reader.bytes.length = reader.fillBuf.length + rest.length := by
      rw [hbytes, List.length_append]
    have hpos := List.length_pos_iff.mpr hne
    by_cases hlong : maxFrameBytes + 1 < encoded.length + reader.fillBuf.length
    · rw [if_pos hlong, if_pos (by omega)]
    · rw [if_neg hlong]
      have hnext := ih (reader.consume reader.fillBuf.length).bytes.length
        (by rw [hrest, List.length_drop]; omega) (reader.consume reader.fillBuf.length)
        (encoded ++ reader.fillBuf) (by rw [List.length_append]; omega) rfl
      rw [hrest, List.length_append, List.append_assoc, List.drop_drop] at hnext
      exact hnext

end

def validateResponse (response : PluginResponse) : Except FrameError Unit :=
  if response.result.isSome = response.error.isSome then .error .invalidResponse else .ok ()

/-- The pipes of a plugin's process: what it was sent, and what it will answer. -/
structure PluginProcess where
  stdin : Bytes
  stdout : Reader

variable (requests : Serde PluginRequest) (responses : Serde PluginResponse)

/-- `IsolatedPluginProcess::transact`. -/
def IsolatedPluginProcess.transact (process : PluginProcess) (request : PluginRequest) :
    Except FrameError (PluginResponse × PluginProcess) := do
  let stdin ← writeFrame requests process.stdin request
  let (response, stdout) ← readFrame responses process.stdout
  match response with
  | none => .error (.io "plugin stopped before responding")
  | some response =>
    validateResponse response
    if response.requestId ≠ request.requestId then
      .error (.mismatchedRequest request.requestId response.requestId)
    else
      .ok (response, ⟨stdin, stdout⟩)

/-! ### The host -/

/-- `transact` of `external_plugin.rs`. -/
def transact (process : PluginProcess) (request : PluginRequest) :
    Except String (PluginResponse × PluginProcess) := do
  let encoded ← requests.toVec request
  if maxFrameBytes < encoded.length then
    .error ("el paquete excede " ++ toString maxFrameBytes ++ " bytes del protocolo de plugins")
  else
    let stdin := process.stdin ++ (encoded ++ [newline])
    let (line, stdout) := process.stdout.readUntil newline (maxFrameBytes + 1) []
    if line.getLast? ≠ some newline then
      .error (if maxFrameBytes < line.length
        then "la respuesta del plugin excede " ++ toString maxFrameBytes ++ " bytes"
        else "el plugin terminó sin responder")
    else
      let response ← (responses.fromSlice line.dropLast).mapError
        fun error => "el plugin respondió JSON inválido: " ++ error
      if response.protocolVersion ≠ protocolVersion then
        .error ("el plugin usa el protocolo " ++ toString response.protocolVersion.toNat ++
          " y Jaiba el " ++ toString protocolVersion.toNat)
      else
        (validateResponse response).mapError FrameError.text
        if response.requestId ≠ request.requestId then
          .error ("el plugin respondió a '" ++ response.requestId ++ "' y se esperaba '" ++
            request.requestId ++ "'")
        else
          .ok (response, ⟨stdin, stdout⟩)

/-! ### Frames of a stream -/

/-- The first line of a stream when it ends within the limit. -/
structure Frame (stream body rest : Bytes) : Prop where
  bytes : stream = body ++ newline :: rest
  line : newline ∉ body
  limit : body.length ≤ maxFrameBytes

theorem Frame.unique {stream body rest body' rest' : Bytes} (h : Frame stream body rest)
    (h' : Frame stream body' rest') : body = body' ∧ rest = rest' := by
  have hline := upTo_line h.line rest
  have hline' := upTo_line h'.line rest'
  rw [← h.bytes] at hline
  rw [← h'.bytes, hline] at hline'
  obtain rfl := List.append_cancel_right hline'
  have hrest := h.bytes.symm.trans h'.bytes
  rw [List.append_cancel_left_eq, List.cons_eq_cons] at hrest
  exact ⟨rfl, hrest.2⟩

theorem Frame.drop {stream body rest : Bytes} (h : Frame stream body rest) :
    stream.drop (body.length + 1) = rest := by
  rw [h.bytes, List.drop_append, List.drop_eq_nil_of_le (by omega), List.nil_append,
    Nat.add_sub_cancel_left, List.drop_succ_cons, List.drop_zero]

variable {requests responses}

theorem readFrame_of_frame {T : Type} [VersionedEnvelope T] (serde : Serde T) {reader : Reader}
    {body rest : Bytes} (h : Frame reader.bytes body rest) : ∃ reader' : Reader, reader'.bytes = rest ∧
      readFrame serde reader = (decodeFrame serde body).map fun message => (some message, reader') := by
  have hread := readLine_eq reader [] (Nat.zero_le _)
  have hlimit := h.limit
  have hline : upTo newline reader.bytes = body ++ [newline] := by
    rw [h.bytes, upTo_line h.line]
  rw [hline, List.length_append, List.length_singleton, List.length_nil, if_neg (by omega), h.drop]
    at hread
  obtain ⟨reader', hread, hrest⟩ := hread
  refine ⟨reader', hrest, ?_⟩
  unfold readFrame
  rw [hread]
  have hne : body ++ [newline] ≠ [] := List.append_ne_nil_of_right_ne_nil _ (List.cons_ne_nil _ _)
  have hbound : ¬(maxFrameBytes + 1 < (body ++ [newline]).length ∨
      (body ++ [newline]).getLast? ≠ some newline) := by
    rw [List.length_append, List.length_singleton, List.getLast?_concat]
    rintro (hlong | hends)
    · omega
    · exact hends rfl
  simp only [bind, Except.bind, List.nil_append]
  rw [if_neg hne, if_neg hbound, List.dropLast_concat]
  cases decodeFrame serde body with
  | error e => rfl
  | ok message => rfl

theorem readFrame_end {T : Type} [VersionedEnvelope T] (serde : Serde T) {reader : Reader}
    (h : reader.bytes = []) : ∃ reader' : Reader, readFrame serde reader = .ok (none, reader') := by
  have hread := readLine_eq reader [] (Nat.zero_le _)
  rw [h, upTo, List.length_nil, if_neg (by omega)] at hread
  obtain ⟨reader', hread, -⟩ := hread
  refine ⟨reader', ?_⟩
  unfold readFrame
  rw [hread]
  rfl

theorem end_of_readFrame {T : Type} [VersionedEnvelope T] {serde : Serde T} {reader reader' : Reader}
    (h : readFrame serde reader = .ok (none, reader')) : reader.bytes = [] := by
  obtain ⟨⟨line, after⟩, hline, h⟩ := bind_ok h
  dsimp only at h
  split at h
  · next hnil =>
    have hread := readLine_eq reader [] (Nat.zero_le _)
    split at hread
    · rw [hread] at hline
      cases hline
    · obtain ⟨after', hread, -⟩ := hread
      rw [hread, hnil, List.nil_append] at hline
      exact upTo_eq_nil_iff.mp (congrArg Prod.fst (Except.ok.inj hline))
  · split at h
    · cases h
    · obtain ⟨_, -, h⟩ := bind_ok h
      cases h

theorem frame_of_readFrame {T : Type} [VersionedEnvelope T] {serde : Serde T} {reader reader' : Reader}
    {message : T} (h : readFrame serde reader = .ok (some message, reader')) :
    ∃ body : Bytes, Frame reader.bytes body reader'.bytes ∧ decodeFrame serde body = .ok message := by
  obtain ⟨⟨line, after⟩, hline, h⟩ := bind_ok h
  dsimp only at h
  split at h
  · cases h
  split at h
  · cases h
  next hends =>
  rw [not_or, not_lt, not_not] at hends
  obtain ⟨decoded, hdecoded, h⟩ := bind_ok h
  cases h
  have hread := readLine_eq reader [] (Nat.zero_le _)
  split at hread
  · rw [hread] at hline
    cases hline
  obtain ⟨after', hread, hrest⟩ := hread
  rw [hread] at hline
  cases hline
  obtain ⟨body, rest, hbytes, hbody⟩ := exists_line_of_mem (getLast?_upTo.mp hends.2)
  rw [List.nil_append, hbytes, upTo_line hbody] at hends hdecoded
  rw [List.dropLast_concat] at hdecoded
  rw [List.length_append, List.length_singleton] at hends
  have hframe : Frame reader.bytes body rest := ⟨hbytes, hbody, by omega⟩
  have hline : upTo newline reader.bytes = body ++ [newline] := by
    rw [hbytes, upTo_line hbody]
  rw [hline, List.length_append, List.length_singleton, hframe.drop] at hrest
  rw [← hrest] at hframe
  exact ⟨body, hframe, hdecoded⟩

theorem decodeFrame_ok_iff {T : Type} [VersionedEnvelope T] {serde : Serde T} {body : Bytes}
    {message : T} : decodeFrame serde body = .ok message ↔
      serde.fromSlice body = .ok message ∧ VersionedEnvelope.protocolVersion message = protocolVersion := by
  unfold decodeFrame
  cases hbody : serde.fromSlice body with
  | error e =>
    constructor
    · intro h
      cases h
    · intro h
      cases h.1
  | ok decoded =>
    simp only [Except.mapError, bind, Except.bind]
    constructor
    · intro h
      split at h
      · cases h
      · next hversion =>
        cases h
        exact ⟨rfl, not_not.mp hversion⟩
    · rintro ⟨h, hversion⟩
      cases h
      rw [if_neg (not_not.mpr hversion)]

theorem writeFrame_ok_iff {T : Type} {serde : Serde T} {writer out : Bytes} {message : T} :
    writeFrame serde writer message = .ok out ↔ ∃ encoded : Bytes, serde.toVec message = .ok encoded ∧
      encoded.length ≤ maxFrameBytes ∧ out = writer ++ encoded ++ [newline] := by
  unfold writeFrame
  cases hencoded : serde.toVec message with
  | error e =>
    constructor
    · intro h
      cases h
    · rintro ⟨encoded, h, -⟩
      cases h
  | ok encoded =>
    simp only [Except.mapError, bind, Except.bind]
    constructor
    · intro h
      split at h
      · cases h
      · next hlimit =>
        cases h
        exact ⟨encoded, rfl, by omega, rfl⟩
    · rintro ⟨encoded', h, hlimit, rfl⟩
      cases h
      rw [if_neg (by omega)]

/-- What an accepted exchange takes: a request within the limit, and a frame that
decodes to a valid answer to it. -/
def Exchanged (requests : Serde PluginRequest) (responses : Serde PluginResponse)
    (process : PluginProcess) (request : PluginRequest) (response : PluginResponse)
    (stdin rest : Bytes) : Prop :=
  writeFrame requests process.stdin request = .ok stdin ∧
    (∃ body : Bytes, Frame process.stdout.bytes body rest ∧ responses.fromSlice body = .ok response) ∧
    response.protocolVersion = protocolVersion ∧ validateResponse response = .ok () ∧
    response.requestId = request.requestId

theorem isolated_transact_iff {process : PluginProcess} {request : PluginRequest}
    {response : PluginResponse} {stdin rest : Bytes} :
    (∃ process' : PluginProcess, IsolatedPluginProcess.transact requests responses process request =
      .ok (response, process') ∧ process'.stdin = stdin ∧ process'.stdout.bytes = rest) ↔
    Exchanged requests responses process request response stdin rest := by
  constructor
  · rintro ⟨process', h, rfl, rfl⟩
    obtain ⟨stdin, hwrite, h⟩ := bind_ok h
    obtain ⟨⟨answer, stdout⟩, hread, h⟩ := bind_ok h
    cases answer with
    | none => cases h
    | some answer =>
      obtain ⟨_, hvalid, h⟩ := bind_ok h
      split at h
      · cases h
      · next hid =>
        cases h
        obtain ⟨body, hframe, hdecoded⟩ := frame_of_readFrame hread
        obtain ⟨hparsed, hversion⟩ := decodeFrame_ok_iff.mp hdecoded
        exact ⟨hwrite, ⟨body, hframe, hparsed⟩, hversion, hvalid, not_not.mp hid⟩
  · rintro ⟨hwrite, ⟨body, hframe, hparsed⟩, hversion, hvalid, hid⟩
    obtain ⟨stdout, hrest, hread⟩ := readFrame_of_frame responses hframe
    rw [decodeFrame_ok_iff.mpr ⟨hparsed, hversion⟩] at hread
    refine ⟨⟨stdin, stdout⟩, ?_, rfl, hrest⟩
    unfold IsolatedPluginProcess.transact
    simp only [hwrite, hread, bind, Except.bind, Except.map, hvalid]
    rw [if_neg (not_not.mpr hid)]

/-- The host's limited read ends in a newline exactly at a frame. -/
theorem hostLine_of_frame {stdout : Reader} {body rest : Bytes} (h : Frame stdout.bytes body rest) :
    (stdout.readUntil newline (maxFrameBytes + 1) []).1 = body ++ [newline] ∧
      (stdout.readUntil newline (maxFrameBytes + 1) []).2.bytes = rest := by
  have hlimit := h.limit
  have hline : upTo newline (stdout.bytes.take (maxFrameBytes + 1)) = body ++ [newline] := by
    rw [upTo_take, h.bytes, upTo_line h.line, List.take_of_length_le]
    rw [List.length_append, List.length_singleton]
    omega
  obtain ⟨hread, hrest⟩ := @Reader.readUntil_eq newline stdout (maxFrameBytes + 1) []
  rw [hline, List.nil_append] at hread
  rw [hline, List.length_append, List.length_singleton, h.drop] at hrest
  exact ⟨hread, hrest⟩

theorem frame_of_hostLine {stdout : Reader}
    (h : (stdout.readUntil newline (maxFrameBytes + 1) []).1.getLast? = some newline) :
    ∃ body rest : Bytes, Frame stdout.bytes body rest := by
  rw [(stdout.readUntil_eq (maxFrameBytes + 1) []).1, List.nil_append, getLast?_upTo] at h
  obtain ⟨body, rest, hbytes, hbody⟩ := exists_line_of_mem h
  refine ⟨body, rest ++ stdout.bytes.drop (maxFrameBytes + 1), ?_, hbody, ?_⟩
  · rw [← List.cons_append, ← List.append_assoc, ← hbytes, List.take_append_drop]
  · have hlength := congrArg List.length hbytes
    rw [List.length_take, List.length_append, List.length_cons] at hlength
    omega

theorem transact_iff {process : PluginProcess} {request : PluginRequest} {response : PluginResponse}
    {stdin rest : Bytes} :
    (∃ process' : PluginProcess, transact requests responses process request = .ok (response, process') ∧
      process'.stdin = stdin ∧ process'.stdout.bytes = rest) ↔
    Exchanged requests responses process request response stdin rest := by
  unfold Exchanged
  rw [writeFrame_ok_iff]
  constructor
  · rintro ⟨process', h, rfl, rfl⟩
    obtain ⟨encoded, hencoded, h⟩ := bind_ok h
    split at h
    · cases h
    next hlimit =>
    dsimp only at h
    split at h
    · cases h
    next hends =>
    obtain ⟨answer, hparsed, h⟩ := bind_ok h
    split at h
    · cases h
    next hversion =>
    obtain ⟨_, hvalid, h⟩ := bind_ok h
    split at h
    · cases h
    next hid =>
    cases h
    obtain ⟨body, rest, hframe⟩ := frame_of_hostLine (not_not.mp hends)
    obtain ⟨hline, hrest⟩ := hostLine_of_frame hframe
    rw [hline, List.dropLast_concat] at hparsed
    rw [← hrest] at hframe
    refine ⟨⟨encoded, hencoded, by omega, (List.append_assoc _ _ _).symm⟩,
      ⟨body, hframe, of_mapError_ok hparsed⟩, not_not.mp hversion, of_mapError_ok hvalid, not_not.mp hid⟩
  · rintro ⟨⟨encoded, hencoded, hlimit, rfl⟩, ⟨body, hframe, hparsed⟩, hversion, hvalid, hid⟩
    obtain ⟨hline, hrest⟩ := hostLine_of_frame hframe
    refine ⟨⟨process.stdin ++ (encoded ++ [newline]), _⟩, ?_, (List.append_assoc _ _ _).symm, hrest⟩
    unfold transact
    simp only [hencoded, bind, Except.bind]
    rw [if_neg (by omega), hline, if_neg (not_not.mpr List.getLast?_concat), List.dropLast_concat]
    simp only [hparsed, Except.mapError, hvalid]
    rw [if_neg (not_not.mpr hversion), if_neg (not_not.mpr hid)]

/-! ### Sequences of frames -/

theorem readFrame_shorter {T : Type} [VersionedEnvelope T] {serde : Serde T} {reader reader' : Reader}
    {message : T} (h : readFrame serde reader = .ok (some message, reader')) :
    reader'.bytes.length < reader.bytes.length := by
  obtain ⟨body, hframe, -⟩ := frame_of_readFrame h
  rw [hframe.bytes, List.length_append, List.length_cons]
  omega

/-- `read_frame` until the end of the stream. -/
def readAll {T : Type} [VersionedEnvelope T] (serde : Serde T) (reader : Reader) :
    Except FrameError (List T) :=
  match _h : readFrame serde reader with
  | .error e => .error e
  | .ok (none, _) => .ok []
  | .ok (some message, reader') => (readAll serde reader').map (message :: ·)
termination_by reader.bytes.length
decreasing_by exact readFrame_shorter _h

def writeFrames {T : Type} (serde : Serde T) : Bytes → List T → Except FrameError Bytes
  | writer, [] => .ok writer
  | writer, message :: messages => do
    let writer ← writeFrame serde writer message
    writeFrames serde writer messages

theorem prefix_writeFrames {T : Type} {serde : Serde T} {writer out : Bytes} {messages : List T}
    (h : writeFrames serde writer messages = .ok out) : ∃ stream : Bytes, out = writer ++ stream := by
  induction messages generalizing writer with
  | nil =>
    cases h
    exact ⟨[], (List.append_nil _).symm⟩
  | cons message messages ih =>
    obtain ⟨next, hnext, h⟩ := bind_ok h
    obtain ⟨encoded, -, -, rfl⟩ := writeFrame_ok_iff.mp hnext
    obtain ⟨stream, rfl⟩ := ih h
    exact ⟨encoded ++ [newline] ++ stream, by simp only [List.append_assoc]⟩

/-- A message `serde_json` reads back unchanged from one line, in this version of the
protocol. -/
structure Framed {T : Type} [VersionedEnvelope T] (serde : Serde T) (message : T) : Prop where
  version : VersionedEnvelope.protocolVersion message = protocolVersion
  line : ∀ encoded : Bytes, serde.toVec message = .ok encoded → newline ∉ encoded
  parsed : ∀ encoded : Bytes, serde.toVec message = .ok encoded → serde.fromSlice encoded = .ok message

theorem readAll_writeFrames {T : Type} [VersionedEnvelope T] {serde : Serde T} {messages : List T}
    (hframed : ∀ message ∈ messages, Framed serde message) {writer stream : Bytes}
    (h : writeFrames serde writer messages = .ok (writer ++ stream)) {reader : Reader}
    (hreader : reader.bytes = stream) : readAll serde reader = .ok messages := by
  induction messages generalizing writer stream reader with
  | nil =>
    have hnil : stream = [] := List.self_eq_append_right.mp (Except.ok.inj h)
    obtain ⟨reader', hread⟩ := readFrame_end serde (hreader.trans hnil)
    rw [readAll]
    split
    · next hread' => cases hread.symm.trans hread'
    · rfl
    · next hread' => cases hread.symm.trans hread'
  | cons message messages ih =>
    obtain ⟨next, hnext, h⟩ := bind_ok h
    obtain ⟨encoded, hencoded, hlimit, rfl⟩ := writeFrame_ok_iff.mp hnext
    obtain ⟨rest, hrest⟩ := prefix_writeFrames h
    rw [hrest] at h
    rw [List.append_assoc, List.append_assoc, List.append_cancel_left_eq] at hrest
    have hmessage := hframed message List.mem_cons_self
    have hframe : Frame reader.bytes encoded rest :=
      ⟨hreader.trans hrest, hmessage.line encoded hencoded, hlimit⟩
    obtain ⟨reader', hbytes, hread⟩ := readFrame_of_frame serde hframe
    rw [decodeFrame_ok_iff.mpr ⟨hmessage.parsed encoded hencoded, hmessage.version⟩] at hread
    have hrest' := ih (fun m hm => hframed m (List.mem_cons_of_mem _ hm)) h hbytes
    rw [readAll]
    split
    · next hread' => cases hread.symm.trans hread'
    · next hread' => cases hread.symm.trans hread'
    · next hread' =>
      cases hread.symm.trans hread'
      rw [hrest']
      rfl

/-- Messages of this version come back as they were written, however the stream is
cut, and both hosts take from a stream the same answer, the one `read_frame` takes when
it answers the request. -/
theorem framing_agreement :
    (∀ (T : Type) [VersionedEnvelope T] (serde : Serde T) (messages : List T) (stream : Bytes),
      (∀ message ∈ messages, Framed serde message) → writeFrames serde [] messages = .ok stream →
      ∀ reader : Reader, reader.bytes = stream → readAll serde reader = .ok messages) ∧
    ∀ (requests : Serde PluginRequest) (responses : Serde PluginResponse) (request : PluginRequest)
      (stdin : Bytes) (blocking async : Reader), blocking.bytes = async.bytes →
      ∀ (response : PluginResponse) (stdin' rest : Bytes),
        ((∃ process' : PluginProcess, transact requests responses ⟨stdin, async⟩ request =
            .ok (response, process') ∧ process'.stdin = stdin' ∧ process'.stdout.bytes = rest) ↔
          writeFrame requests stdin request = .ok stdin' ∧
          (∃ reader' : Reader, readFrame responses blocking = .ok (some response, reader') ∧
            reader'.bytes = rest) ∧
          validateResponse response = .ok () ∧ response.requestId = request.requestId) ∧
        ((∃ process' : PluginProcess, transact requests responses ⟨stdin, async⟩ request =
            .ok (response, process') ∧ process'.stdin = stdin' ∧ process'.stdout.bytes = rest) ↔
          ∃ process' : PluginProcess, IsolatedPluginProcess.transact requests responses
            ⟨stdin, blocking⟩ request = .ok (response, process') ∧ process'.stdin = stdin' ∧
            process'.stdout.bytes = rest) ∧
        ((∃ reader' : Reader, readFrame responses blocking = .ok (some response, reader') ∧
            reader'.bytes = rest) ↔
          ∃ body : Bytes, blocking.bytes = body ++ newline :: rest ∧ newline ∉ body ∧
            body.length ≤ maxFrameBytes ∧ responses.fromSlice body = .ok response ∧
            response.protocolVersion = protocolVersion) ∧
        ((∃ reader' : Reader, readFrame responses blocking = .ok (none, reader')) ↔
          blocking.bytes = []) := by
  refine ⟨fun T _ serde messages stream hframed hwrite reader hreader =>
    readAll_writeFrames hframed hwrite hreader, ?_⟩
  intro requests responses request stdin blocking async hbytes response stdin' rest
  have hread : (∃ reader' : Reader, readFrame responses blocking = .ok (some response, reader') ∧
      reader'.bytes = rest) ↔ ∃ body : Bytes, Frame blocking.bytes body rest ∧
        responses.fromSlice body = .ok response ∧ response.protocolVersion = protocolVersion := by
    constructor
    · rintro ⟨reader', hread, rfl⟩
      obtain ⟨body, hframe, hdecoded⟩ := frame_of_readFrame hread
      exact ⟨body, hframe, decodeFrame_ok_iff.mp hdecoded⟩
    · rintro ⟨body, hframe, hdecoded⟩
      obtain ⟨reader', hrest, hread⟩ := readFrame_of_frame responses hframe
      rw [decodeFrame_ok_iff.mpr hdecoded] at hread
      exact ⟨reader', hread, hrest⟩
  refine ⟨?_, ?_, ?_, ⟨fun ⟨_, hend⟩ => end_of_readFrame hend, readFrame_end responses⟩⟩
  · rw [transact_iff, Exchanged, hread, hbytes]
    constructor
    · rintro ⟨hwrite, ⟨body, hframe, hparsed⟩, hversion, hvalid, hid⟩
      exact ⟨hwrite, ⟨body, hframe, hparsed, hversion⟩, hvalid, hid⟩
    · rintro ⟨hwrite, ⟨body, hframe, hparsed, hversion⟩, hvalid, hid⟩
      exact ⟨hwrite, ⟨body, hframe, hparsed⟩, hversion, hvalid, hid⟩
  · rw [transact_iff, isolated_transact_iff, Exchanged, Exchanged, hbytes]
  · rw [hread]
    constructor
    · rintro ⟨body, hframe, hparsed, hversion⟩
      exact ⟨body, hframe.bytes, hframe.line, hframe.limit, hparsed, hversion⟩
    · rintro ⟨body, hbody, hline, hlimit, hparsed, hversion⟩
      exact ⟨body, ⟨hbody, hline, hlimit⟩, hparsed, hversion⟩

/-! ### Samples -/

def sampleResponseJson (response : PluginResponse) : Json :=
  .object [("protocol_version", .number (.posInt response.protocolVersion.toNat)),
    ("request_id", .string response.requestId),
    ("result", if response.result.isSome then .object [("kind", .string "shutdown")] else .null),
    ("error", if response.error.isSome then .object [("code", .string "busy"),
      ("message", .string "later"), ("retryable", .bool true)] else .null)]

def answer : PluginResponse := ⟨1, "a", some .shutdown, none⟩
def failure : PluginResponse := ⟨1, "b", none, some ⟨"busy", "later", true⟩⟩
def stale : PluginResponse := ⟨2, "a", some .shutdown, none⟩
def ambiguous : PluginResponse := ⟨1, "a", some .shutdown, some ⟨"busy", "later", true⟩⟩

def sampleText (response : PluginResponse) : Bytes := utf8 (sampleResponseJson response).render

def samples : List PluginResponse := [answer, failure, stale, ambiguous]

/-- `serde_json` on the four responses above. -/
def sampleResponses : Serde PluginResponse where
  toVec response := .ok (sampleText response)
  fromSlice bytes := match (samples.findIdx? (sampleText · == bytes)).bind (samples[·]?) with
    | some response => .ok response
    | none => .error "expected value at line 1 column 1"

def sampleRequest : PluginRequest := ⟨1, "a", .shutdown, .null, none, none⟩

def sampleRequestText : Bytes :=
  utf8 (Json.object [("protocol_version", .number (.posInt 1)), ("request_id", .string "a"),
    ("operation", .string "shutdown"), ("configuration", .null), ("packet", .null),
    ("context", .null)]).render

/-- `serde_json` on the request above. -/
def sampleRequests : Serde PluginRequest where
  toVec _ := .ok sampleRequestText
  fromSlice _ := .error "EOF while parsing a value at line 1 column 0"

/-- A stream in one read. -/
def whole (bytes : Bytes) (h : bytes ≠ []) : Reader := ⟨[bytes], fun chunk hmem => by
  rw [List.mem_singleton.mp hmem]
  exact h⟩

theorem sample_line {response : PluginResponse} (h : response ∈ samples) :
    newline ∉ sampleText response ∧ (sampleText response).length ≤ maxFrameBytes := by
  have hall : (samples.all fun r => !(sampleText r).contains newline && (sampleText r).length ≤ 200) =
      true := by
    decide +kernel
  have hsample := List.all_eq_true.mp hall response h
  rw [Bool.and_eq_true, Bool.not_eq_true', decide_eq_true_eq] at hsample
  refine ⟨fun hmem => ?_, ?_⟩
  · rw [List.contains_iff_mem.mpr hmem] at hsample
    cases hsample.1
  · rw [maxFrameBytes]
    omega

theorem sample_frame {response : PluginResponse} (h : response ∈ samples) (rest : Bytes) :
    Frame (sampleText response ++ newline :: rest) (sampleText response) rest :=
  ⟨rfl, (sample_line h).1, (sample_line h).2⟩

theorem sample_parsed {i : ℕ} {response : PluginResponse} (hget : samples[i]? = some response)
    (h : (samples.findIdx? (sampleText · == sampleText response)) = some i) :
    sampleResponses.fromSlice (sampleText response) = .ok response := by
  simp only [sampleResponses, h, Option.bind_some, hget]

theorem answer_parsed : sampleResponses.fromSlice (sampleText answer) = .ok answer :=
  sample_parsed (i := 0) rfl (by decide +kernel)

theorem failure_parsed : sampleResponses.fromSlice (sampleText failure) = .ok failure :=
  sample_parsed (i := 1) rfl (by decide +kernel)

theorem stale_parsed : sampleResponses.fromSlice (sampleText stale) = .ok stale :=
  sample_parsed (i := 2) rfl (by decide +kernel)

theorem ambiguous_parsed : sampleResponses.fromSlice (sampleText ambiguous) = .ok ambiguous :=
  sample_parsed (i := 3) rfl (by decide +kernel)

theorem sample_written {response : PluginResponse} (h : response ∈ samples) (writer : Bytes) :
    writeFrame sampleResponses writer response = .ok (writer ++ sampleText response ++ [newline]) :=
  writeFrame_ok_iff.mpr ⟨_, rfl, (sample_line h).2, rfl⟩

theorem mem_samples : answer ∈ samples ∧ failure ∈ samples ∧ stale ∈ samples ∧ ambiguous ∈ samples := by
  simp only [samples, List.mem_cons, true_or, or_true, and_self]

/-- Two messages in sequence however they are cut, and an answer to the host. -/
theorem framing_sample :
    (∀ reader : Reader, reader.bytes = sampleText answer ++ [newline] ++ sampleText failure ++ [newline] →
      readAll sampleResponses reader = .ok [answer, failure]) ∧
    ∃ process' : PluginProcess, transact sampleRequests sampleResponses
      ⟨[], whole (sampleText answer ++ [newline]) (List.concat_ne_nil _ _)⟩ sampleRequest =
        .ok (answer, process') ∧ process'.stdout.bytes = [] := by
  obtain ⟨hanswer, hfailure, -, -⟩ := mem_samples
  have hwrite : writeFrames sampleResponses [] [answer, failure] =
      .ok (sampleText answer ++ [newline] ++ sampleText failure ++ [newline]) := by
    simp only [writeFrames, sample_written hanswer, sample_written hfailure, bind, Except.bind,
      List.nil_append]
  have hframed : ∀ message ∈ [answer, failure], Framed sampleResponses message := by
    intro message hmem
    rcases List.mem_cons.mp hmem with rfl | hmem
    · refine ⟨rfl, fun encoded hencoded => ?_, fun encoded hencoded => ?_⟩
      · cases hencoded
        exact (sample_line hanswer).1
      · cases hencoded
        exact answer_parsed
    · rw [List.mem_singleton.mp hmem]
      refine ⟨rfl, fun encoded hencoded => ?_, fun encoded hencoded => ?_⟩
      · cases hencoded
        exact (sample_line hfailure).1
      · cases hencoded
        exact failure_parsed
  refine ⟨fun reader hreader => framing_agreement.1 _ sampleResponses [answer, failure] _ hframed
    hwrite reader hreader, ?_⟩
  have hrequest : sampleRequestText.length ≤ 200 := by decide +kernel
  have hsend : writeFrame sampleRequests [] sampleRequest = .ok ([] ++ sampleRequestText ++ [newline]) := by
    refine writeFrame_ok_iff.mpr ⟨_, rfl, ?_, rfl⟩
    rw [maxFrameBytes]
    omega
  let reader := whole (sampleText answer ++ [newline]) (List.concat_ne_nil _ _)
  have hbytes : reader.bytes = sampleText answer ++ [newline] := List.flatten_singleton
  have hagree := framing_agreement.2 sampleRequests sampleResponses sampleRequest [] reader reader rfl
    answer ([] ++ sampleRequestText ++ [newline]) []
  have hread := hagree.2.2.1.mpr ⟨sampleText answer, hbytes, (sample_line hanswer).1,
    (sample_line hanswer).2, answer_parsed, rfl⟩
  obtain ⟨process', hprocess, -, hrest⟩ := hagree.1.mpr ⟨hsend, hread, rfl, rfl⟩
  exact ⟨process', hprocess, hrest⟩

/-- A message of another version is written but not read back, and `read_frame` takes an
answer with both a result and an error, which the host rejects. -/
theorem framing_rejects :
    (∃ (stream : Bytes) (reader : Reader), writeFrames sampleResponses [] [stale] = .ok stream ∧
      reader.bytes = stream ∧ readAll sampleResponses reader = .error (.version 2)) ∧
    ∃ reader reader' : Reader, readFrame sampleResponses reader = .ok (some ambiguous, reader') ∧
      ∀ (response : PluginResponse) (process' : PluginProcess),
        transact sampleRequests sampleResponses ⟨[], reader⟩ sampleRequest ≠ .ok (response, process') := by
  obtain ⟨-, -, hstale, hambiguous⟩ := mem_samples
  constructor
  · let reader := whole (sampleText stale ++ [newline]) (List.concat_ne_nil _ _)
    have hbytes : reader.bytes = sampleText stale ++ [newline] := List.flatten_singleton
    refine ⟨_, reader, ?_, hbytes, ?_⟩
    · simp only [writeFrames, sample_written hstale, bind, Except.bind, List.nil_append]
    have hframe := sample_frame hstale []
    rw [← hbytes] at hframe
    obtain ⟨reader', -, hread⟩ := readFrame_of_frame sampleResponses hframe
    have hdecode : decodeFrame sampleResponses (sampleText stale) = .error (.version 2) := by
      simp only [decodeFrame, stale_parsed, Except.mapError, bind, Except.bind]
      rfl
    rw [hdecode] at hread
    rw [readAll]
    split
    · next hread' =>
      cases hread.symm.trans hread'
      rfl
    · next hread' => cases hread.symm.trans hread'
    · next hread' => cases hread.symm.trans hread'
  · let reader := whole (sampleText ambiguous ++ [newline]) (List.concat_ne_nil _ _)
    have hbytes : reader.bytes = sampleText ambiguous ++ [newline] := List.flatten_singleton
    have hframe := sample_frame hambiguous []
    rw [← hbytes] at hframe
    obtain ⟨reader', -, hread⟩ := readFrame_of_frame sampleResponses hframe
    have hdecode : decodeFrame sampleResponses (sampleText ambiguous) = .ok ambiguous :=
      decodeFrame_ok_iff.mpr ⟨ambiguous_parsed, rfl⟩
    rw [hdecode] at hread
    refine ⟨reader, reader', hread, fun response process' h => ?_⟩
    obtain ⟨-, ⟨body, hbody, hparsed⟩, -, hvalid, -⟩ := transact_iff.mp ⟨process', h, rfl, rfl⟩
    obtain ⟨rfl, -⟩ := hframe.unique hbody
    rw [ambiguous_parsed] at hparsed
    cases hparsed
    cases hvalid

end Jaiba.Plugin
