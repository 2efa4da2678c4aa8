import Jaiba.Lib.Replay
import Jaiba.Memory.Cold.Record

/-!
# Cold segments (`jaiba-memory/src/cold.rs`)

What a reopened store reads from one segment file: `scan_segment` with its torn
tails, `record_len`, `find_record` and the loop of `salvage_segment`. A segment
of whole records is a log, and scanning it replays the log into the index.
-/

namespace Jaiba.Memory.Cold
open Jaiba.Lib

/-- `segment-{id:020}.jmc` in the directory `dir` of a class: the padded names
are in the order of the identifiers. -/
structure Path where
  dir : String
  id : ℕ
  deriving DecidableEq

structure RecordLocation where
  path : Path
  offset : ℕ
  totalLen : ℕ
  className : String
  deriving DecidableEq

abbrev Index := Dict String RecordLocation

inductive ScanError where
  | corrupt (reason : String)
  | fatal (error : MemoryError)

/-- Length of a structurally valid record at the start of `bytes`. -/
def recordLen (bytes : Bytes) : Option ℕ :=
  if bytes.length < headerLen then none
  else
    match parseHeader (bytes.take headerLen) with
    | .error _ => none
    | .ok header =>
      if header.flag ≠ flagValue ∧ header.flag ≠ flagTombstone then none
      else if header.totalLen > bytes.length then none
      else if (ofUtf8? (slice bytes headerLen header.keyLen)).isNone then none
      else if (ofUtf8? (slice bytes (headerLen + header.keyLen) header.classLen)).isNone then none
      else some header.totalLen

def findRecord (bytes : Bytes) (start : ℕ) : Option ℕ :=
  (List.range' start (bytes.length - (headerLen - 1) - start)).find? fun i =>
    magic.isPrefixOf (bytes.drop i) && (recordLen (bytes.drop i)).isSome

def tailOrCorrupt (bytes : Bytes) (offset : ℕ) : Except ScanError ℕ :=
  if (findRecord (bytes.drop offset) 1).isSome then
    .error (.corrupt ("registro ilegible en offset " ++ toString offset ++
      " seguido de registros válidos"))
  else .ok offset

theorem headerLen_pos : 0 < headerLen := by decide

/-- The loop of `scan_segment` from `offset` on: the valid length and the index. -/
def scanFrom (path : Path) (bytes : Bytes) (offset : ℕ) (index : Index) :
    Except ScanError ℕ × Index :=
  if _hmore : offset < bytes.length then
    if bytes.length < offset + headerLen then (tailOrCorrupt bytes offset, index)
    else
      match parseHeader (slice bytes offset headerLen) with
      | .error _ => (tailOrCorrupt bytes offset, index)
      | .ok header =>
        if offset + header.totalLen > bytes.length then (tailOrCorrupt bytes offset, index)
        else
          match ofUtf8? (slice bytes (offset + headerLen) header.keyLen),
              ofUtf8? (slice bytes (offset + headerLen + header.keyLen) header.classLen) with
          | some key, some className =>
            let location : RecordLocation := ⟨path, offset, header.totalLen, className⟩
            if header.flag = flagValue then
              match Dict.get? index key with
              | some existing =>
                if existing.className ≠ className then
                  (.error (.fatal (.cold ("clave '" ++ key ++ "' duplicada entre clases '" ++
                    existing.className ++ "' y '" ++ className ++ "'"))), index)
                else scanFrom path bytes (offset + header.totalLen) (Dict.insert index key location)
              | none => scanFrom path bytes (offset + header.totalLen) (Dict.insert index key location)
            else if header.flag = flagTombstone then
              scanFrom path bytes (offset + header.totalLen) (Dict.erase index key)
            else
              (.error (.corrupt ("flag " ++ toString header.flag ++ " inválido en offset " ++
                toString offset)), index)
          | _, _ =>
            (.error (.corrupt ("key/class UTF-8 inválida en offset " ++ toString offset)), index)
  else (.ok offset, index)
termination_by bytes.length - offset
decreasing_by
  all_goals
    have := headerLen_pos
    rw [Header.totalLen]
    omega

def scanSegment (path : Path) (bytes : Bytes) (index : Index) : Except ScanError ℕ × Index :=
  scanFrom path bytes 0 index

theorem recordLen_pos {bytes : Bytes} {n : ℕ} (h : recordLen bytes = some n) : 0 < n := by
  have hpos := headerLen_pos
  rw [recordLen] at h
  split at h
  · cases h
  · split at h
    · cases h
    · split_ifs at h
      cases Option.some.inj h
      rw [Header.totalLen]
      omega

theorem findRecord_bounds {bytes : Bytes} {start i : ℕ} (h : findRecord bytes start = some i) :
    start ≤ i ∧ i < bytes.length := by
  have hmem := List.mem_range'_1.mp (List.mem_of_find?_eq_some h)
  omega

/-- The loop of `salvage_segment`: the records that are still valid. -/
def salvageFrom (bytes : Bytes) (offset : ℕ) (kept : Bytes) : Bytes :=
  if _hmore : offset < bytes.length then
    match _hlen : recordLen (bytes.drop offset) with
    | some total => salvageFrom bytes (offset + total) (kept ++ slice bytes offset total)
    | none =>
      match _hnext : findRecord bytes (offset + 1) with
      | some next => salvageFrom bytes next kept
      | none => kept
  else kept
termination_by bytes.length - offset
decreasing_by
  · have := recordLen_pos _hlen
    omega
  · have := findRecord_bounds _hnext
    omega

/-! ### Whole records -/

namespace Record

variable {codec : Codec} (r : Record codec)

/-- What a record at `offset` of a segment says. -/
def entry (path : Path) (offset : ℕ) : LogEntry String RecordLocation where
  key := r.key
  value := r.value.map fun _ => ⟨path, offset, r.bytes.length, r.className⟩

/-- The log that is a sequence of records from `offset` on. -/
def entries (path : Path) : ℕ → List (Record codec) → List (LogEntry String RecordLocation)
  | _, [] => []
  | offset, r :: rs => r.entry path offset :: entries path (offset + r.bytes.length) rs

theorem entries_append (path : Path) (offset : ℕ) (rs rs' : List (Record codec)) :
    entries path offset (rs ++ rs') =
      entries path offset rs ++ entries path (offset + (rs.flatMap bytes).length) rs' := by
  induction rs generalizing offset with
  | nil => rfl
  | cons r rs ih =>
    rw [List.cons_append, entries, entries, ih, List.flatMap_cons, List.length_append,
      List.cons_append, Nat.add_assoc]

theorem parseHeader_take : parseHeader (r.bytes.take headerLen) = .ok r.header := by
  have hlong := r.headerLen_le
  have hsplit : r.bytes = r.bytes.take headerLen ++ r.bytes.drop headerLen :=
    (List.take_append_drop ..).symm
  have hlen : headerLen ≤ (r.bytes.take headerLen).length := by
    rw [List.length_take]
    omega
  have hparse := r.parseHeader_bytes []
  rw [List.append_nil, hsplit, parseHeader_append hlen] at hparse
  exact hparse

theorem recordLen_bytes (rest : Bytes) : recordLen (r.bytes ++ rest) = some r.bytes.length := by
  have hlong := r.headerLen_le
  have hshort : ¬ (r.bytes ++ rest).length < headerLen := by
    rw [List.length_append]
    omega
  have htake : (r.bytes ++ rest).take headerLen = r.bytes.take headerLen :=
    List.take_append_of_le_length hlong
  have hflag : ¬ (r.header.flag ≠ flagValue ∧ r.header.flag ≠ flagTombstone) := by
    rw [header_flag]
    cases r.value <;> simp
  have hend : ¬ r.header.totalLen > (r.bytes ++ rest).length := by
    rw [List.length_append, length_bytes]
    omega
  rw [recordLen, if_neg hshort, htake, r.parseHeader_take]
  dsimp only
  rw [if_neg hflag, if_neg hend, key_slice, class_slice, ofUtf8?_utf8, ofUtf8?_utf8, length_bytes]
  rfl

end Record

variable {codec : Codec}

/-- The bytes `d` say of their flag, lengths, key and class what the record `r` says. -/
structure Framed (r : Record codec) (d : Bytes) : Prop where
  length : d.length = r.bytes.length
  header : ∃ h, parseHeader (d.take headerLen) = .ok h ∧ h.flag = r.header.flag ∧
    h.keyLen = r.header.keyLen ∧ h.classLen = r.header.classLen ∧ h.payloadLen = r.header.payloadLen
  key : slice d headerLen r.header.keyLen = utf8 r.key
  className : slice d (headerLen + r.header.keyLen) r.header.classLen = utf8 r.className

theorem Record.framed (r : Record codec) : Framed r r.bytes := by
  have hkey := r.key_slice []
  have hclass := r.class_slice []
  rw [List.append_nil] at hkey hclass
  exact ⟨rfl, ⟨r.header, r.parseHeader_take, rfl, rfl, rfl, rfl⟩, hkey, hclass⟩

/-- One round of the loop: the replay of the entry, or the fatal conflict. -/
theorem scanFrom_framed (path : Path) (pre post : Bytes) {r : Record codec} {d : Bytes}
    (hd : Framed r d) (index : Index) :
    match Replay.apply RecordLocation.className index (r.entry path pre.length) with
    | some j => scanFrom path (pre ++ (d ++ post)) pre.length index =
        scanFrom path (pre ++ (d ++ post)) (pre.length + d.length) j
    | none => ∃ e, scanFrom path (pre ++ (d ++ post)) pre.length index =
        (.error (.fatal e), index) := by
  have hpos := r.bytes_pos
  have hlong := r.headerLen_le
  have hdlen := hd.length
  obtain ⟨header, hhead, hsameFlag, hkeyLen, hclassLen, hpayloadLen⟩ := hd.header
  have htotal : header.totalLen = d.length := by
    rw [hdlen, r.length_bytes, Header.totalLen, Header.totalLen, hkeyLen, hclassLen, hpayloadLen]
  have hparts : headerLen + r.header.keyLen + r.header.classLen ≤ d.length := by
    rw [hdlen, r.length_bytes, Header.totalLen]
    omega
  have hlen : (pre ++ (d ++ post)).length = pre.length + (d.length + post.length) := by
    rw [List.length_append, List.length_append]
  have hmore : pre.length < (pre ++ (d ++ post)).length := by omega
  have hheader : ¬ (pre ++ (d ++ post)).length < pre.length + headerLen := by omega
  have hparse : parseHeader (slice (pre ++ (d ++ post)) pre.length headerLen) = .ok header := by
    have htake : slice (d ++ post) 0 headerLen = d.take headerLen := by
      rw [slice, List.drop_zero, List.take_append_of_le_length (by omega)]
    have hs := slice_append_right pre (d ++ post) 0 headerLen
    rw [Nat.add_zero] at hs
    rw [hs, htake, hhead]
  have hend : ¬ pre.length + header.totalLen > (pre ++ (d ++ post)).length := by omega
  have hkey : ofUtf8? (slice (pre ++ (d ++ post)) (pre.length + headerLen) header.keyLen) =
      some r.key := by
    rw [slice_append_right, hkeyLen, slice_append (by omega), hd.key, ofUtf8?_utf8]
  have hclass : ofUtf8? (slice (pre ++ (d ++ post)) (pre.length + headerLen + header.keyLen)
      header.classLen) = some r.className := by
    rw [Nat.add_assoc, slice_append_right, hkeyLen, hclassLen, slice_append (by omega),
      hd.className, ofUtf8?_utf8]
  rw [scanFrom, dif_pos hmore, if_neg hheader, hparse]
  dsimp only
  rw [if_neg hend, hkey, hclass]
  dsimp only
  rw [Replay.apply, Record.entry]
  cases hv : r.value with
  | none =>
    have hflag : header.flag = flagTombstone := by rw [hsameFlag, r.header_flag, hv]; rfl
    have hvalue : header.flag ≠ flagValue := by rw [hflag]; decide
    simp only [Option.map_none]
    rw [if_neg hvalue, if_pos hflag, htotal]
  | some v =>
    have hflag : header.flag = flagValue := by rw [hsameFlag, r.header_flag, hv]; rfl
    simp only [Option.map_some, htotal, hdlen, if_pos hflag]
    cases hi : Dict.get? index r.key with
    | none => rfl
    | some existing =>
      dsimp only
      by_cases hc : existing.className = r.className
      · rw [if_pos hc, if_neg (not_not.mpr hc)]
      · rw [if_neg hc, if_pos hc]
        exact ⟨_, rfl⟩

/-- A sequence of records: the replay of its log, or a fatal conflict. -/
theorem scanFrom_records (path : Path) (pre tail : Bytes) (rs : List (Record codec)) (index : Index) :
    match Replay.replay RecordLocation.className index (Record.entries path pre.length rs) with
    | some j => scanFrom path (pre ++ (rs.flatMap Record.bytes ++ tail)) pre.length index =
        scanFrom path (pre ++ (rs.flatMap Record.bytes ++ tail))
          (pre.length + (rs.flatMap Record.bytes).length) j
    | none => ∃ e j, scanFrom path (pre ++ (rs.flatMap Record.bytes ++ tail)) pre.length index =
        (.error (.fatal e), j) := by
  induction rs generalizing pre index with
  | nil => rfl
  | cons r rs ih =>
    have hstep := scanFrom_framed path pre (rs.flatMap Record.bytes ++ tail) r.framed index
    rw [Record.entries, Replay.replay, List.flatMap_cons, List.append_assoc]
    cases happly : Replay.apply RecordLocation.className index (r.entry path pre.length) with
    | none =>
      rw [happly] at hstep
      obtain ⟨e, he⟩ := hstep
      exact ⟨e, index, he⟩
    | some i =>
      rw [happly] at hstep
      have hrest := ih (pre ++ r.bytes) i
      rw [List.length_append, List.append_assoc] at hrest
      rw [Option.bind_some, List.length_append, ← Nat.add_assoc]
      cases hreplay : Replay.replay RecordLocation.className i
          (Record.entries path (pre.length + r.bytes.length) rs) with
      | none =>
        rw [hreplay] at hrest
        obtain ⟨e, j, hj⟩ := hrest
        exact ⟨e, j, hstep.trans hj⟩
      | some j =>
        rw [hreplay] at hrest
        exact hstep.trans hrest

/-! ### What does not read as a record -/

theorem recordLen_le {bytes : Bytes} {n : ℕ} (h : recordLen bytes = some n) :
    headerLen ≤ n ∧ n ≤ bytes.length := by
  rw [recordLen] at h
  split at h
  · cases h
  · split at h
    · cases h
    · split_ifs at h with _ hend
      cases Option.some.inj h
      rw [Header.totalLen] at hend ⊢
      omega

theorem magic_of_recordLen {bytes : Bytes} {n : ℕ} (h : recordLen bytes = some n) :
    magic.isPrefixOf bytes = true := by
  rw [recordLen] at h
  split at h
  · cases h
  · split at h
    · cases h
    next header hparse =>
      have hmagic := (parseHeader_ok hparse).2
      rw [List.take_take] at hmagic
      rw [List.isPrefixOf_iff_prefix, ← hmagic]
      exact List.take_prefix ..

/-- The search tries every offset at which a record can stand. -/
theorem findRecord_none_iff {bytes : Bytes} {start : ℕ} :
    findRecord bytes start = none ↔ ∀ i, start ≤ i → recordLen (bytes.drop i) = none := by
  rw [findRecord, List.find?_eq_none]
  constructor
  · intro h i hi
    cases hrec : recordLen (bytes.drop i) with
    | none => rfl
    | some n =>
      have hle := recordLen_le hrec
      have hpos := headerLen_pos
      rw [List.length_drop] at hle
      refine absurd ?_ (h i (List.mem_range'_1.mpr (by omega)))
      rw [magic_of_recordLen hrec, hrec]
      rfl
  · intro h i hi
    rw [h i (List.mem_range'_1.mp hi).1, Option.isSome_none, Bool.and_false]
    exact Bool.false_ne_true

theorem findRecord_some {bytes : Bytes} {start i : ℕ} (h : findRecord bytes start = some i) :
    start ≤ i ∧ (recordLen (bytes.drop i)).isSome ∧
      ∀ j, start ≤ j → j < i → recordLen (bytes.drop j) = none := by
  rw [findRecord, List.find?_range'_eq_some] at h
  obtain ⟨hfound, hmem, hbefore⟩ := h
  rw [Bool.and_eq_true] at hfound
  refine ⟨(List.mem_range'_1.mp hmem).1, hfound.2, fun j hj hlt => ?_⟩
  cases hrec : recordLen (bytes.drop j) with
  | none => rfl
  | some n =>
    have hno := hbefore j hj hlt
    rw [magic_of_recordLen hrec, hrec] at hno
    cases hno

/-- The first record behind `start`, where there is one. -/
theorem findRecord_eq {bytes : Bytes} {start i : ℕ} (hi : start ≤ i)
    (hfound : (recordLen (bytes.drop i)).isSome)
    (hbefore : ∀ j, start ≤ j → j < i → recordLen (bytes.drop j) = none) :
    findRecord bytes start = some i := by
  cases hfind : findRecord bytes start with
  | none =>
    rw [findRecord_none_iff.mp hfind i hi] at hfound
    cases hfound
  | some i' =>
    obtain ⟨hi', hfound', hbefore'⟩ := findRecord_some hfind
    rcases lt_trichotomy i i' with hlt | heq | hlt
    · rw [hbefore' i hi hlt] at hfound
      cases hfound
    · rw [heq]
    · rw [hbefore i' hi' hlt] at hfound'
      cases hfound'

/-- No record starts in `junk`, which is followed by `post`. -/
def Dead (junk post : Bytes) : Prop := ∀ i < junk.length, recordLen ((junk ++ post).drop i) = none

/-- At the end of a segment that is what `find_record` decides. -/
theorem dead_iff {junk : Bytes} : Dead junk [] ↔ findRecord junk 0 = none := by
  rw [Dead, List.append_nil, findRecord_none_iff]
  constructor
  · intro h i _
    by_cases hi : i < junk.length
    · exact h i hi
    · rw [List.drop_eq_nil_of_le (by omega)]
      rfl
  · exact fun h i _ => h i (Nat.zero_le i)

section Scan

variable {path : Path} {bytes : Bytes} {offset n : ℕ} {index j : Index}

/-- A structurally valid record is passed over, unless its class conflicts. -/
theorem scanFrom_found (h : recordLen (bytes.drop offset) = some n) :
    (∃ index', scanFrom path bytes offset index = scanFrom path bytes (offset + n) index') ∨
      ∃ e, scanFrom path bytes offset index = (.error (.fatal e), index) := by
  have hle := recordLen_le h
  have hpos := headerLen_pos
  rw [List.length_drop] at hle
  have hlong : ¬ (bytes.drop offset).length < headerLen := by
    rw [List.length_drop]
    omega
  rw [recordLen, if_neg hlong] at h
  have hslice (start len : ℕ) : slice bytes (offset + start) len = slice (bytes.drop offset) start len := by
    rw [slice, slice, List.drop_drop]
  have hhead : slice bytes offset headerLen = (bytes.drop offset).take headerLen := rfl
  rw [scanFrom, dif_pos (by omega), if_neg (by omega), hhead]
  cases hparse : parseHeader ((bytes.drop offset).take headerLen) with
  | error e =>
    rw [hparse] at h
    cases h
  | ok header =>
    rw [hparse] at h
    dsimp only at h ⊢
    split_ifs at h with hflag hend hkey hclass
    cases Option.some.inj h
    rw [Bool.not_eq_true, Option.isNone_eq_false_iff, Option.isSome_iff_exists] at hkey hclass
    obtain ⟨key, hkey⟩ := hkey
    obtain ⟨className, hclass⟩ := hclass
    rw [← hslice] at hkey
    rw [← hslice, ← Nat.add_assoc] at hclass
    rw [List.length_drop] at hend
    rw [if_neg (by omega), hkey, hclass]
    dsimp only
    split_ifs with hvalue htomb
    · split
      · split_ifs
        · exact .inr ⟨_, rfl⟩
        · exact .inl ⟨_, rfl⟩
      · exact .inl ⟨_, rfl⟩
    · exact .inl ⟨_, rfl⟩
    · exact absurd ⟨hvalue, htomb⟩ hflag

/-- Where no record stands the scan ends, with a torn tail or with damage. -/
theorem scanFrom_dead (hmore : offset < bytes.length) (h : recordLen (bytes.drop offset) = none) :
    scanFrom path bytes offset index = (tailOrCorrupt bytes offset, index) ∨
      ∃ reason, scanFrom path bytes offset index = (.error (.corrupt reason), index) := by
  have hslice (start len : ℕ) : slice bytes (offset + start) len = slice (bytes.drop offset) start len := by
    rw [slice, slice, List.drop_drop]
  have hhead : slice bytes offset headerLen = (bytes.drop offset).take headerLen := rfl
  rw [scanFrom, dif_pos hmore]
  split_ifs with hshort
  · exact .inl rfl
  have hlong : ¬ (bytes.drop offset).length < headerLen := by
    rw [List.length_drop]
    omega
  rw [recordLen, if_neg hlong] at h
  rw [hhead]
  cases hparse : parseHeader ((bytes.drop offset).take headerLen) with
  | error e => exact .inl rfl
  | ok header =>
    rw [hparse] at h
    dsimp only at h ⊢
    by_cases hend : offset + header.totalLen > bytes.length
    · exact .inl (if_pos hend)
    rw [if_neg hend]
    right
    cases hkey : ofUtf8? (slice bytes (offset + headerLen) header.keyLen) with
    | none => exact ⟨_, rfl⟩
    | some key =>
      cases hclass : ofUtf8? (slice bytes (offset + headerLen + header.keyLen) header.classLen) with
      | none => exact ⟨_, rfl⟩
      | some className =>
        -- only the flag is left to be wrong
        rw [hslice] at hkey
        rw [Nat.add_assoc, hslice] at hclass
        have hend' : ¬ header.totalLen > (bytes.drop offset).length := by
          rw [List.length_drop]
          omega
        rw [if_neg hend', hkey, hclass] at h
        by_cases hflag : header.flag ≠ flagValue ∧ header.flag ≠ flagTombstone
        · dsimp only
          rw [if_neg hflag.1, if_neg hflag.2]
          exact ⟨_, rfl⟩
        · rw [if_neg hflag, Option.isNone_some, Option.isNone_some, if_neg Bool.false_ne_true,
            if_neg Bool.false_ne_true] at h
          cases h

/-- The valid length is that of the records that were passed. -/
theorem scanFrom_ok_le (h : scanFrom path bytes offset index = (.ok n, j)) : offset ≤ n := by
  induction hd : bytes.length - offset using Nat.strong_induction_on generalizing offset index with
  | _ d ih =>
    by_cases hmore : offset < bytes.length
    · cases hrec : recordLen (bytes.drop offset) with
      | some len =>
        have hpos := recordLen_pos hrec
        rcases @scanFrom_found path bytes offset len index hrec with ⟨index', hstep⟩ | ⟨e, hfatal⟩
        · rw [hstep] at h
          have hle := ih (bytes.length - (offset + len)) (by omega) h rfl
          omega
        · rw [hfatal] at h
          cases congrArg Prod.fst h
      | none =>
        rcases @scanFrom_dead path bytes offset index hmore hrec with htail | ⟨reason, hcorrupt⟩
        · rw [htail, tailOrCorrupt] at h
          split_ifs at h
          · cases congrArg Prod.fst h
          · exact (Except.ok.inj (congrArg Prod.fst h)).le
        · rw [hcorrupt] at h
          cases congrArg Prod.fst h
    · rw [scanFrom, dif_neg hmore] at h
      exact (Except.ok.inj (congrArg Prod.fst h)).le

end Scan

/-! ### Torn tails and damage -/

/-- What an append that failed may have left behind the last whole record, with
no complete record in it. -/
structure Torn (codec : Codec) (tail : Bytes) : Prop where
  written : tail = [] ∨ ∃ (r : Record codec) (n : ℕ), tail = r.bytes.take n
  incomplete : findRecord tail 0 = none

theorem Torn.nil : Torn codec [] := ⟨.inl rfl, rfl⟩

/-- The bytes of a segment: whole records, and nothing else that reads as one. -/
structure Damaged (rs : List (Record codec)) (bytes : Bytes) : Prop where
  parts : ∃ (before after : List (Record codec)) (junk : Bytes), rs = before ++ after ∧
    bytes = before.flatMap Record.bytes ++ (junk ++ after.flatMap Record.bytes) ∧
      Dead junk (after.flatMap Record.bytes)

theorem Damaged.tail {rs : List (Record codec)} {tail : Bytes} (h : findRecord tail 0 = none) :
    Damaged rs (rs.flatMap Record.bytes ++ tail) := by
  refine ⟨rs, [], tail, (List.append_nil rs).symm, ?_, ?_⟩
  · rw [List.flatMap_nil, List.append_nil]
  · rw [List.flatMap_nil]
    exact dead_iff.mpr h

theorem Damaged.whole (rs : List (Record codec)) : Damaged rs (rs.flatMap Record.bytes) := by
  have h : findRecord ([] : Bytes) 0 = none := rfl
  have hd : Damaged rs (rs.flatMap Record.bytes ++ []) := Damaged.tail h
  rwa [List.append_nil] at hd

/-- Behind junk the search meets the next record, if there is one. -/
theorem findRecord_junk {pre junk : Bytes} {after : List (Record codec)}
    (hdead : Dead junk (after.flatMap Record.bytes)) {start : ℕ} (hstart : pre.length ≤ start)
    (hle : start ≤ pre.length + junk.length) :
    findRecord (pre ++ (junk ++ after.flatMap Record.bytes)) start =
      if after = [] then none else some (pre.length + junk.length) := by
  have hdrop {i : ℕ} (hi : pre.length ≤ i) : (pre ++ (junk ++ after.flatMap Record.bytes)).drop i =
      (junk ++ after.flatMap Record.bytes).drop (i - pre.length) := by
    rw [List.drop_append, List.drop_eq_nil_of_le hi, List.nil_append]
  cases after with
  | nil =>
    rw [if_pos rfl, findRecord_none_iff]
    intro i hi
    rw [hdrop (by omega)]
    by_cases hin : i - pre.length < junk.length
    · exact hdead _ hin
    · rw [List.flatMap_nil, List.append_nil, List.drop_eq_nil_of_le (by omega)]
      rfl
  | cons r after =>
    rw [if_neg (List.cons_ne_nil r after)]
    refine findRecord_eq hle ?_ fun j hj hlt => ?_
    · rw [hdrop (by omega), Nat.add_sub_cancel_left, List.drop_left, List.flatMap_cons,
        r.recordLen_bytes]
      rfl
    · rw [hdrop (by omega)]
      exact hdead _ (by omega)

theorem salvageFrom_records (pre tail kept : Bytes) (rs : List (Record codec)) :
    salvageFrom (pre ++ (rs.flatMap Record.bytes ++ tail)) pre.length kept =
      salvageFrom (pre ++ (rs.flatMap Record.bytes ++ tail))
        (pre.length + (rs.flatMap Record.bytes).length) (kept ++ rs.flatMap Record.bytes) := by
  induction rs generalizing pre kept with
  | nil =>
    rw [List.flatMap_nil, List.length_nil, Nat.add_zero, List.append_nil]
  | cons r rs ih =>
    have hpos := r.bytes_pos
    have hrest := ih (pre ++ r.bytes) (kept ++ r.bytes)
    rw [List.length_append, List.append_assoc, List.append_assoc] at hrest
    rw [List.flatMap_cons, List.append_assoc, List.length_append, ← Nat.add_assoc, ← hrest]
    have hdrop : (pre ++ (r.bytes ++ (rs.flatMap Record.bytes ++ tail))).drop pre.length =
        r.bytes ++ (rs.flatMap Record.bytes ++ tail) := List.drop_left
    have hmore : pre.length < (pre ++ (r.bytes ++ (rs.flatMap Record.bytes ++ tail))).length := by
      rw [List.length_append, List.length_append]
      omega
    have hslice : slice (pre ++ (r.bytes ++ (rs.flatMap Record.bytes ++ tail))) pre.length
        r.bytes.length = r.bytes := by
      rw [slice, hdrop, List.take_left]
    rw [salvageFrom, dif_pos hmore]
    split
    next total htotal =>
      rw [hdrop, r.recordLen_bytes] at htotal
      rw [← Option.some.inj htotal, hslice]
    next hnone =>
      rw [hdrop, r.recordLen_bytes] at hnone
      cases hnone

/-- Salvaging keeps the whole records. -/
theorem salvageFrom_damaged {rs : List (Record codec)} {bytes : Bytes} (h : Damaged rs bytes) :
    salvageFrom bytes 0 [] = rs.flatMap Record.bytes := by
  obtain ⟨before, after, junk, rfl, rfl, hdead⟩ := h.parts
  have hbefore := salvageFrom_records [] (junk ++ after.flatMap Record.bytes) [] before
  rw [List.nil_append, List.length_nil, Nat.zero_add, List.nil_append] at hbefore
  have hafter (kept : Bytes) := salvageFrom_records (before.flatMap Record.bytes ++ junk) [] kept after
  rw [List.append_nil, List.append_assoc, List.length_append] at hafter
  have hend (offset : ℕ) (kept : Bytes)
      (hle : (before.flatMap Record.bytes ++ (junk ++ after.flatMap Record.bytes)).length ≤ offset) :
      salvageFrom (before.flatMap Record.bytes ++ (junk ++ after.flatMap Record.bytes)) offset kept =
        kept := by
    rw [salvageFrom, dif_neg (by omega)]
  have hlast (kept : Bytes) : salvageFrom (before.flatMap Record.bytes ++
      (junk ++ after.flatMap Record.bytes)) ((before.flatMap Record.bytes).length + junk.length) kept =
        kept ++ after.flatMap Record.bytes := by
    rw [hafter, hend]
    rw [List.length_append, List.length_append]
    omega
  rw [hbefore, List.flatMap_append]
  rcases junk with _ | ⟨b, junk⟩
  · exact hlast _
  · have hmore : (before.flatMap Record.bytes).length <
        (before.flatMap Record.bytes ++ (b :: junk ++ after.flatMap Record.bytes)).length := by
      rw [List.length_append, List.length_append, List.length_cons]
      omega
    rw [salvageFrom, dif_pos hmore]
    split
    next total htotal =>
      rw [List.drop_left] at htotal
      have hnone := hdead 0 (Nat.succ_pos _)
      rw [List.drop_zero, htotal] at hnone
      cases hnone
    · have hfind := @findRecord_junk codec (before.flatMap Record.bytes) (b :: junk) after hdead
        ((before.flatMap Record.bytes).length + 1) (by omega) (by rw [List.length_cons]; omega)
      split
      next next hnext =>
        rw [hfind] at hnext
        split_ifs at hnext
        rw [← Option.some.inj hnext]
        exact hlast _
      next hnext =>
        rw [hfind] at hnext
        split_ifs at hnext with hnil
        rw [hnil, List.flatMap_nil, List.append_nil]

end Jaiba.Memory.Cold
