import Jaiba.Lib.Bytes
import Jaiba.Lib.Except
import Jaiba.Memory.Manager

/-!
# Cold records (`jaiba-memory/src/cold.rs`)

A record is a header of 53 bytes (magic `JMC1`, flag, four lengths, SHA-256 of
the uncompressed value), the key, the class and the LZ4 payload. A tombstone
has no payload and a zero checksum.
-/

namespace Jaiba.Memory.Cold
open Jaiba.Lib

def magic : Bytes := [74, 77, 67, 49]
def flagValue : UInt8 := 1
def flagTombstone : UInt8 := 2
def headerLen : ℕ := 4 + 1 + 4 * 4 + 32
def maxFieldBytes : ℕ := 16 * 1024 * 1024
def maxPayloadBytes : ℕ := 1024 * 1024 * 1024

abbrev ColdEntry := TierEntry

/-- `serde_json`, `lz4_flex`, `sha2` and the text of `Utf8Error`. -/
structure Codec where
  toVec : Value → Except String Bytes
  fromSlice : Bytes → Except String Value
  compress : Bytes → Bytes
  decompress : Bytes → ℕ → Except String Bytes
  digest : Bytes → Bytes
  utf8Error : Bytes → String
  digest_length : ∀ bytes, (digest bytes).length = 32

structure Codec.RoundTrips (codec : Codec) : Prop where
  json : ∀ value raw, codec.toVec value = .ok raw → codec.fromSlice raw = .ok value
  lz4 : ∀ raw, codec.decompress (codec.compress raw) raw.length = .ok raw

structure Header where
  flag : UInt8
  keyLen : ℕ
  classLen : ℕ
  rawLen : ℕ
  payloadLen : ℕ
  checksum : Bytes
  deriving DecidableEq

/-- The length of the record a header announces. -/
def Header.totalLen (h : Header) : ℕ := headerLen + h.keyLen + h.classLen + h.payloadLen

def validateLen (label : String) (value maximum : ℕ) : Except MemoryError Unit :=
  if value > maximum ∨ value > 2 ^ 32 - 1 then
    .error (.cold (label ++ " demasiado grande: " ++ toString value ++ " bytes (máximo " ++
      toString maximum ++ ")"))
  else .ok ()

def validateHeader (header : Header) : Except MemoryError Unit := do
  validateLen "key" header.keyLen maxFieldBytes
  validateLen "class" header.classLen maxFieldBytes
  validateLen "raw" header.rawLen maxPayloadBytes
  validateLen "payload" header.payloadLen maxPayloadBytes

def writeHeader (h : Header) : Bytes :=
  magic ++ [h.flag] ++ toLeBytes 4 h.keyLen ++ toLeBytes 4 h.classLen ++ toLeBytes 4 h.rawLen ++
    toLeBytes 4 h.payloadLen ++ h.checksum

def parseHeader (bytes : Bytes) : Except MemoryError Header :=
  if bytes.length < headerLen ∨ bytes.take 4 ≠ magic then
    .error (.cold "magic de segmento inválido")
  else do
    let header : Header := {
      flag := bytes.getD 4 0
      keyLen := ofLeBytes (slice bytes 5 4)
      classLen := ofLeBytes (slice bytes 9 4)
      rawLen := ofLeBytes (slice bytes 13 4)
      payloadLen := ofLeBytes (slice bytes 17 4)
      checksum := slice bytes 21 32 }
    validateHeader header
    return header

/-- What `append_record` computes before it looks for room. -/
structure Encoded where
  flag : UInt8
  rawLen : ℕ
  payload : Bytes
  checksum : Bytes

def encodeValue (codec : Codec) : Option Value → Except MemoryError Encoded
  | some value => do
    let raw ← (codec.toVec value).mapError fun error => .cold ("serializar value: " ++ error)
    validateLen "value" raw.length maxPayloadBytes
    return ⟨flagValue, raw.length, codec.compress raw, codec.digest raw⟩
  | none => return ⟨flagTombstone, 0, [], List.replicate 32 0⟩

def encodeRecord (codec : Codec) (key className : String) (value : Option Value) :
    Except MemoryError Encoded := do
  validateLen "key" (utf8 key).length maxFieldBytes
  validateLen "class" (utf8 className).length maxFieldBytes
  let encoded ← encodeValue codec value
  validateLen "payload comprimido" encoded.payload.length maxPayloadBytes
  return encoded

def Encoded.header (e : Encoded) (key className : String) : Header where
  flag := e.flag
  keyLen := (utf8 key).length
  classLen := (utf8 className).length
  rawLen := e.rawLen
  payloadLen := e.payload.length
  checksum := e.checksum

/-- The bytes of a record, in the order in which `append_record` writes them. -/
def recordBytes (key className : String) (e : Encoded) : Bytes :=
  writeHeader (e.header key className) ++ utf8 key ++ utf8 className ++ e.payload

def decodeValueRecord (codec : Codec) (bytes : Bytes) (expectedKey : String) :
    Except MemoryError ColdEntry := do
  let header ← parseHeader bytes
  if header.flag ≠ flagValue then
    throw (.cold "el índice apunta a tombstone")
  let keyStart := headerLen
  let classStart := keyStart + header.keyLen
  let payloadStart := classStart + header.classLen
  let payloadEnd := payloadStart + header.payloadLen
  if payloadEnd > bytes.length then
    throw (.cold "registro cold truncado")
  let keyBytes := slice bytes keyStart header.keyLen
  let some key := ofUtf8? keyBytes
    | throw (.cold ("key UTF-8 inválida: " ++ codec.utf8Error keyBytes))
  if key ≠ expectedKey then
    throw (.cold ("índice inconsistente: esperado '" ++ expectedKey ++ "', encontrado '" ++ key ++
      "'"))
  let classBytes := slice bytes classStart header.classLen
  let some className := ofUtf8? classBytes
    | throw (.cold ("class UTF-8 inválida: " ++ codec.utf8Error classBytes))
  let raw ← (codec.decompress (slice bytes payloadStart header.payloadLen) header.rawLen).mapError
    fun error => .cold ("descomprimir LZ4: " ++ error)
  if codec.digest raw ≠ header.checksum then
    throw (.cold ("checksum inválido para '" ++ expectedKey ++ "'"))
  let value ← (codec.fromSlice raw).mapError fun error => .cold ("JSON cold inválido: " ++ error)
  return ⟨className, value⟩

/-! ### Well-formed records -/

theorem validateLen_ok_iff {label : String} {value maximum : ℕ} :
    validateLen label value maximum = .ok () ↔ value ≤ maximum ∧ value ≤ 2 ^ 32 - 1 := by
  rw [validateLen]
  split
  next h =>
    constructor
    · intro he
      cases he
    · rintro ⟨h1, h2⟩
      omega
  next h =>
    constructor
    · intro _
      omega
    · exact fun _ => rfl

/-- A header as `append_record` may write it. -/
structure Header.Valid (h : Header) : Prop where
  validated : validateHeader h = .ok ()
  checksum : h.checksum.length = 32

theorem validateHeader_ok_iff {h : Header} : validateHeader h = .ok () ↔
    h.keyLen ≤ maxFieldBytes ∧ h.classLen ≤ maxFieldBytes ∧ h.rawLen ≤ maxPayloadBytes ∧
      h.payloadLen ≤ maxPayloadBytes := by
  have hfield (label : String) {n : ℕ} (hn : n ≤ maxFieldBytes) :
      validateLen label n maxFieldBytes = .ok () := by
    refine validateLen_ok_iff.mpr ⟨hn, ?_⟩
    rw [maxFieldBytes] at hn
    omega
  have hpayload (label : String) {n : ℕ} (hn : n ≤ maxPayloadBytes) :
      validateLen label n maxPayloadBytes = .ok () := by
    refine validateLen_ok_iff.mpr ⟨hn, ?_⟩
    rw [maxPayloadBytes] at hn
    omega
  constructor
  · intro hv
    obtain ⟨_, h1, hv⟩ := bind_ok hv
    obtain ⟨_, h2, hv⟩ := bind_ok hv
    obtain ⟨_, h3, h4⟩ := bind_ok hv
    exact ⟨(validateLen_ok_iff.mp h1).1, (validateLen_ok_iff.mp h2).1, (validateLen_ok_iff.mp h3).1,
      (validateLen_ok_iff.mp h4).1⟩
  · rintro ⟨h1, h2, h3, h4⟩
    rw [validateHeader, hfield _ h1, hfield _ h2, hpayload _ h3, hpayload _ h4]
    rfl

theorem length_writeHeader {h : Header} (hc : h.checksum.length = 32) :
    (writeHeader h).length = headerLen := by
  simp [writeHeader, magic, headerLen, hc]

/-- The header round trip. -/
theorem parseHeader_writeHeader {h : Header} (hv : h.Valid) (rest : Bytes) :
    parseHeader (writeHeader h ++ rest) = .ok h := by
  obtain ⟨hkey, hclass, hraw, hpayload⟩ := validateHeader_ok_iff.mp hv.validated
  rw [maxFieldBytes] at hkey hclass
  rw [maxPayloadBytes] at hraw hpayload
  have hword {n : ℕ} (hn : n < 2 ^ 32) : ofLeBytes (toLeBytes 4 n) = n := ofLeBytes_toLeBytes hn
  have hlong : ¬ (writeHeader h ++ rest).length < headerLen := by
    rw [List.length_append, length_writeHeader hv.checksum]
    omega
  have hmagic : (writeHeader h ++ rest).take 4 = magic := by
    simp [writeHeader, magic]
  have hflag : (writeHeader h ++ rest).getD 4 0 = h.flag := by
    simp [writeHeader, magic]
  have h5 : slice (writeHeader h ++ rest) 5 4 = toLeBytes 4 h.keyLen :=
    slice_eq_mid (magic ++ [h.flag]) _ (toLeBytes 4 h.classLen ++ toLeBytes 4 h.rawLen ++
      toLeBytes 4 h.payloadLen ++ h.checksum ++ rest)
      (by simp only [writeHeader, List.append_assoc]) rfl (length_toLeBytes ..)
  have h9 : slice (writeHeader h ++ rest) 9 4 = toLeBytes 4 h.classLen :=
    slice_eq_mid (magic ++ [h.flag] ++ toLeBytes 4 h.keyLen) _ (toLeBytes 4 h.rawLen ++
      toLeBytes 4 h.payloadLen ++ h.checksum ++ rest)
      (by simp only [writeHeader, List.append_assoc]) rfl (length_toLeBytes ..)
  have h13 : slice (writeHeader h ++ rest) 13 4 = toLeBytes 4 h.rawLen :=
    slice_eq_mid (magic ++ [h.flag] ++ toLeBytes 4 h.keyLen ++ toLeBytes 4 h.classLen) _
      (toLeBytes 4 h.payloadLen ++ h.checksum ++ rest)
      (by simp only [writeHeader, List.append_assoc]) rfl (length_toLeBytes ..)
  have h17 : slice (writeHeader h ++ rest) 17 4 = toLeBytes 4 h.payloadLen :=
    slice_eq_mid (magic ++ [h.flag] ++ toLeBytes 4 h.keyLen ++ toLeBytes 4 h.classLen ++
      toLeBytes 4 h.rawLen) _ (h.checksum ++ rest)
      (by simp only [writeHeader, List.append_assoc]) rfl (length_toLeBytes ..)
  have h21 : slice (writeHeader h ++ rest) 21 32 = h.checksum :=
    slice_eq_mid (magic ++ [h.flag] ++ toLeBytes 4 h.keyLen ++ toLeBytes 4 h.classLen ++
      toLeBytes 4 h.rawLen ++ toLeBytes 4 h.payloadLen) _ rest rfl rfl hv.checksum
  rw [parseHeader, if_neg (not_or.mpr ⟨hlong, not_not.mpr hmagic⟩), hflag, h5, h9, h13, h17, h21,
    hword (by omega), hword (by omega), hword (by omega), hword (by omega)]
  simp only [hv.validated]
  rfl

/-- A header that parses is as long as it says and starts with the magic. -/
theorem parseHeader_ok {bytes : Bytes} {h : Header} (hp : parseHeader bytes = .ok h) :
    headerLen ≤ bytes.length ∧ bytes.take 4 = magic := by
  rw [parseHeader] at hp
  split at hp
  · cases hp
  next hn =>
    rw [not_or, not_not] at hn
    exact ⟨not_lt.mp hn.1, hn.2⟩

/-- Only the first 53 bytes are read. -/
theorem parseHeader_append {bytes : Bytes} (hl : headerLen ≤ bytes.length) (rest : Bytes) :
    parseHeader (bytes ++ rest) = parseHeader bytes := by
  have hlong : ¬ (bytes ++ rest).length < headerLen := by
    rw [List.length_append]
    omega
  have hshort : ¬ bytes.length < headerLen := by omega
  rw [headerLen] at hl
  have hs {start len : ℕ} (h : start + len ≤ 53) :
      slice (bytes ++ rest) start len = slice bytes start len := slice_append (by omega) rest
  have hflag : (bytes ++ rest).getD 4 0 = bytes.getD 4 0 := by
    rw [List.getD_eq_getElem?_getD, List.getD_eq_getElem?_getD, List.getElem?_append_left (by omega)]
  have hmagic : (bytes ++ rest).take 4 = bytes.take 4 := List.take_append_of_le_length (by omega)
  rw [parseHeader, parseHeader, hmagic, hflag, hs (by omega), hs (by omega), hs (by omega),
    hs (by omega), hs (by omega)]
  simp only [hlong, hshort, false_or]

/-- A record that `append_record` may write. -/
structure Record (codec : Codec) where
  key : String
  className : String
  value : Option Value
  encoded : Encoded
  encodes : encodeRecord codec key className value = .ok encoded

namespace Record

variable {codec : Codec} (r : Record codec)

def bytes : Bytes := recordBytes r.key r.className r.encoded

def header : Header := r.encoded.header r.key r.className

theorem encodeValue_ok {value : Option Value} {e : Encoded} (h : encodeValue codec value = .ok e) :
    e.rawLen ≤ maxPayloadBytes ∧ e.checksum.length = 32 ∧
      e.flag = if value.isSome then flagValue else flagTombstone := by
  cases value with
  | none =>
    cases Except.ok.inj h
    exact ⟨Nat.zero_le _, List.length_replicate, rfl⟩
  | some v =>
    obtain ⟨raw, -, h⟩ := bind_ok h
    obtain ⟨_, hlen, h⟩ := bind_ok h
    cases Except.ok.inj h
    exact ⟨(validateLen_ok_iff.mp hlen).1, codec.digest_length raw, rfl⟩

theorem encodes_parts : (utf8 r.key).length ≤ maxFieldBytes ∧
    (utf8 r.className).length ≤ maxFieldBytes ∧ encodeValue codec r.value = .ok r.encoded ∧
      r.encoded.payload.length ≤ maxPayloadBytes := by
  obtain ⟨_, hkey, h⟩ := bind_ok r.encodes
  obtain ⟨_, hclass, h⟩ := bind_ok h
  obtain ⟨e, he, h⟩ := bind_ok h
  obtain ⟨_, hpayload, h⟩ := bind_ok h
  cases Except.ok.inj h
  exact ⟨(validateLen_ok_iff.mp hkey).1, (validateLen_ok_iff.mp hclass).1, he,
    (validateLen_ok_iff.mp hpayload).1⟩

theorem header_valid : r.header.Valid := by
  obtain ⟨hkey, hclass, hvalue, hpayload⟩ := r.encodes_parts
  obtain ⟨hraw, hsum, -⟩ := encodeValue_ok hvalue
  exact ⟨validateHeader_ok_iff.mpr ⟨hkey, hclass, hraw, hpayload⟩, hsum⟩

theorem header_flag : r.header.flag = if r.value.isSome then flagValue else flagTombstone :=
  (encodeValue_ok r.encodes_parts.2.2.1).2.2

theorem length_bytes : r.bytes.length = r.header.totalLen := by
  have hw : (writeHeader (r.encoded.header r.key r.className)).length = headerLen :=
    length_writeHeader r.header_valid.checksum
  rw [bytes, recordBytes, List.length_append, List.length_append, List.length_append, hw]
  rfl

theorem headerLen_le : headerLen ≤ r.bytes.length := by
  rw [length_bytes, Header.totalLen]
  omega

theorem bytes_pos : 0 < r.bytes.length := lt_of_lt_of_le (by decide) r.headerLen_le

theorem parseHeader_bytes (rest : Bytes) : parseHeader (r.bytes ++ rest) = .ok r.header := by
  have hsplit : r.bytes ++ rest =
      writeHeader r.header ++ (utf8 r.key ++ utf8 r.className ++ r.encoded.payload ++ rest) := by
    simp only [bytes, recordBytes, header, List.append_assoc]
  rw [hsplit]
  exact parseHeader_writeHeader r.header_valid _

theorem key_slice (rest : Bytes) :
    slice (r.bytes ++ rest) headerLen r.header.keyLen = utf8 r.key :=
  slice_eq_mid (writeHeader r.header) _ (utf8 r.className ++ r.encoded.payload ++ rest)
    (by simp only [bytes, recordBytes, header, List.append_assoc])
    (length_writeHeader r.header_valid.checksum) rfl

theorem class_slice (rest : Bytes) :
    slice (r.bytes ++ rest) (headerLen + r.header.keyLen) r.header.classLen = utf8 r.className :=
  slice_eq_mid (writeHeader r.header ++ utf8 r.key) _ (r.encoded.payload ++ rest)
    (by simp only [bytes, recordBytes, header, List.append_assoc])
    (by rw [List.length_append, length_writeHeader r.header_valid.checksum]; rfl) rfl

theorem payload_slice (rest : Bytes) :
    slice (r.bytes ++ rest) (headerLen + r.header.keyLen + r.header.classLen) r.header.payloadLen =
      r.encoded.payload :=
  slice_eq_mid (writeHeader r.header ++ utf8 r.key ++ utf8 r.className) _ rest
    (by simp only [bytes, recordBytes, header, List.append_assoc])
    (by rw [List.length_append, List.length_append, length_writeHeader r.header_valid.checksum]; rfl)
    rfl

/-- The value round trip: what was encoded under a key is decoded under it. -/
theorem decode_bytes (hc : codec.RoundTrips) {v : Value} (hv : r.value = some v) :
    decodeValueRecord codec r.bytes r.key = .ok ⟨r.className, v⟩ := by
  have hparse := r.parseHeader_bytes []
  have hkey := r.key_slice []
  have hclass := r.class_slice []
  have hpayload := r.payload_slice []
  rw [List.append_nil] at hparse hkey hclass hpayload
  have hflag : r.header.flag = flagValue := by rw [header_flag, hv]; rfl
  have hend : ¬ headerLen + r.header.keyLen + r.header.classLen + r.header.payloadLen >
      r.bytes.length := by
    rw [length_bytes, Header.totalLen]
    omega
  have henc := r.encodes_parts.2.2.1
  rw [hv] at henc
  obtain ⟨raw, hraw, henc⟩ := bind_ok henc
  obtain ⟨_, -, henc⟩ := bind_ok henc
  have henc := Except.ok.inj henc
  have hjson : codec.toVec v = .ok raw := by
    cases hto : codec.toVec v with
    | error e => rw [hto] at hraw; cases hraw
    | ok raw' => rw [hto] at hraw; exact congrArg _ (Except.ok.inj hraw)
  have hlz4 : codec.decompress r.encoded.payload r.header.rawLen = .ok raw := by
    have hraw' : r.header.rawLen = raw.length := congrArg Encoded.rawLen henc.symm
    have hpay : r.encoded.payload = codec.compress raw := congrArg Encoded.payload henc.symm
    rw [hraw', hpay]
    exact hc.lz4 raw
  have hsum : codec.digest raw = r.header.checksum := congrArg Encoded.checksum henc
  simp only [decodeValueRecord, hparse, bind, Except.bind, hflag, ne_eq, not_true_eq_false,
    ↓reduceIte, pure, Except.pure, hend, hkey, ofUtf8?_utf8, hclass, hpayload, hlz4,
    Except.mapError, hsum, hc.json v raw hjson]

end Record

end Jaiba.Memory.Cold
