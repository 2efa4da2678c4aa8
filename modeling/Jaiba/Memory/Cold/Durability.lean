import Jaiba.Memory.Cold.Refinement

/-!
# What the Cold store keeps

The store reads as the map of its successful calls, over every run, and a
directory is reopened with the same map as long as no stored key has been under
a class whose directory sorts behind. A failed append is harmless while no later
append meets the bytes it left and a reopened segment finds no record in them.
-/

namespace Jaiba.Memory.Cold
open Jaiba.Lib

/-! ### Samples -/

/-- The header of an LZ4 block of literals only. -/
def lz4Header (n : ℕ) : Bytes :=
  if n < 15 then [UInt8.ofNat (16 * n)]
  else 240 :: (List.replicate ((n - 15) / 255) 255 ++ [UInt8.ofNat ((n - 15) % 255)])

def sampleToVec : Value → Except String Bytes
  | .null => .ok [110, 117, 108, 108]
  | .bool true => .ok [116, 114, 117, 101]
  | _ => .error "unsupported"

def sampleFromSlice (bytes : Bytes) : Except String Value :=
  if bytes = [110, 117, 108, 108] then .ok .null
  else if bytes = [116, 114, 117, 101] then .ok (.bool true)
  else .error "unsupported"

/-- The SHA-256 digests of `null`, `true`, `a` and `b`. -/
def sampleDigest (bytes : Bytes) : Bytes :=
  if bytes = [110, 117, 108, 108] then
    [116, 35, 78, 152, 175, 231, 73, 143, 181, 218, 241, 243, 106, 194, 215, 138, 204, 51, 148, 100,
      249, 80, 112, 59, 140, 1, 152, 146, 249, 130, 185, 11]
  else if bytes = [116, 114, 117, 101] then
    [181, 190, 164, 27, 108, 98, 63, 124, 9, 241, 191, 36, 220, 174, 88, 235, 171, 60, 12, 221, 144,
      173, 150, 107, 196, 58, 69, 180, 72, 103, 225, 43]
  else if bytes = [97] then
    [202, 151, 129, 18, 202, 27, 189, 202, 250, 194, 49, 179, 154, 35, 220, 77, 167, 134, 239, 248,
      20, 124, 78, 114, 185, 128, 119, 133, 175, 238, 72, 187]
  else if bytes = [98] then
    [62, 35, 232, 22, 0, 57, 89, 74, 51, 137, 79, 101, 100, 225, 177, 52, 139, 189, 122, 0, 136, 212,
      44, 74, 203, 115, 238, 174, 213, 156, 0, 157]
  else List.replicate 32 0

def sampleCodec : Codec where
  toVec := sampleToVec
  fromSlice := sampleFromSlice
  compress raw := lz4Header raw.length ++ raw
  decompress bytes n :=
    if n ≤ bytes.length then .ok (bytes.drop (bytes.length - n)) else .error "unsupported"
  digest := sampleDigest
  utf8Error _ := "invalid utf-8 sequence"
  digest_length bytes := by
    unfold sampleDigest
    split_ifs <;> rfl

theorem sampleCodec_roundTrips : sampleCodec.RoundTrips where
  json value raw h := by
    change sampleToVec value = .ok raw at h
    change sampleFromSlice raw = .ok value
    unfold sampleToVec at h
    split at h
    · cases Except.ok.inj h
      rfl
    · cases Except.ok.inj h
      rfl
    · cases h
  lz4 raw := by
    change (if raw.length ≤ (lz4Header raw.length ++ raw).length then
      Except.ok ((lz4Header raw.length ++ raw).drop ((lz4Header raw.length ++ raw).length - raw.length))
      else _) = _
    have hle : raw.length ≤ (lz4Header raw.length ++ raw).length := by
      rw [List.length_append]
      omega
    rw [if_pos hle, List.length_append, Nat.add_sub_cancel, List.drop_left]

theorem sample_directories :
    Set.InjOn (classDirectory sampleCodec) ({"a", "b"} : Set String) := by
  have hne : classDirectory sampleCodec "a" ≠ classDirectory sampleCodec "b" := by decide +kernel
  rintro c (rfl | rfl) c' (rfl | rfl) h
  · rfl
  · exact (hne h).elim
  · exact (hne h.symm).elim
  · rfl

/-! ### Reads and reopening -/

variable (codec : Codec) (root : String)

/-- A call that answers `Ok`, on a class of `classes`; a directory is reopened
only when it is settled. -/
structure Orderly (classes : Set String) (t : System) (a : Action) : Prop where
  named : ∀ key entry fault, a = .put key entry fault → entry.className ∈ classes
  succeeds : Succeeds codec t a
  settled : ∀ options, a = .reopen options → Settled codec t.log

theorem orderly_consistent {classes : Set String} (hinj : Set.InjOn (classDirectory codec) classes)
    {t₀ t : System} (h₀ : Consistent codec classes True t₀)
    (ht : (cold codec root).Reach (Orderly codec classes) t₀ t) : Consistent codec classes True t := by
  refine ht.invariant h₀ fun t a t' h hok hstep => ?_
  refine step_consistent root hinj h ?_ (fun _ => hok.succeeds) hstep
  obtain ⟨L, index, hheld, htails, hopen⟩ := h
  cases a with
  | get key => trivial
  | reopen options => exact hok.settled options rfl
  | put key entry fault =>
    have hc := hok.named key entry fault rfl
    refine ⟨hc, fun s hs => contained_of_ok (hopen s hs) (htails trivial) hc ?_⟩
    rintro n text rfl
    obtain ⟨u, hu⟩ := hok.succeeds s hs
    rw [SegmentedColdStore.put] at hu
    split at hu
    · cases hu
    · split at hu
      · cases hu
      next location _ _ hout =>
        exact s.appendRecord_torn t.disk key entry.className (some entry.value) n text location
          (congrArg Prod.fst hout)
  | remove key fault =>
    intro s hs location hl
    have hlive : index key = some location := ((hopen s hs).agrees key).symm.trans hl
    have hc := (hheld.live.live_last key location hlive).1
    refine contained_of_ok (hopen s hs) (htails trivial) hc ?_
    rintro n text rfl
    obtain ⟨u, hu⟩ := hok.succeeds s hs
    rw [SegmentedColdStore.remove, hl] at hu
    dsimp only at hu
    split at hu
    · cases hu
    next location' _ _ hout =>
      exact s.appendRecord_torn t.disk key location.className none n text location'
        (congrArg Prod.fst hout)

/-- A consistent system reads as its map, now and after reopening. -/
theorem Consistent.reads {codec : Codec} (hcodec : codec.RoundTrips) {classes : Set String}
    {clean : Prop} {t : System} (h : Consistent codec classes clean t) {s : SegmentedColdStore}
    (hs : t.store = some s) (key : String) : (s.get codec t.disk key).1 = .ok (stored t.log key) := by
  obtain ⟨L, index, hheld, -, hopen⟩ := h
  exact hheld.get_live hcodec (hopen s hs).agrees (hopen s hs).writing.maps key

theorem Consistent.reopens {codec : Codec} (hcodec : codec.RoundTrips) {classes : Set String}
    (hinj : Set.InjOn (classDirectory codec) classes) {clean : Prop} {t : System}
    (h : Consistent codec classes clean t) (hsettled : Settled codec t.log) (options : Options) :
    ∃ s after, openWithLimit root options t.disk = (.ok s, after) ∧
      ∀ key, (s.get codec after key).1 = .ok (stored t.log key) := by
  obtain ⟨L, index, hheld, -, -⟩ := h
  obtain ⟨s, after, hout, hsound⟩ := reopen_sound root hheld hinj hsettled options
  exact ⟨s, after, hout, fun key => hsound.held.get_live hcodec hsound.agrees hsound.writing.maps key⟩

/-- Where calls have answered `Ok`, the directory is reopened with their map exactly when it is
settled. -/
theorem Consistent.refines {codec : Codec} (hcodec : codec.RoundTrips) {classes : Set String}
    (hinj : Set.InjOn (classDirectory codec) classes) {t : System} (h : Consistent codec classes True t) :
    (∀ s, t.store = some s → ∀ key, (s.get codec t.disk key).1 = .ok (stored t.log key)) ∧
      (∀ options, (∃ s after, openWithLimit root options t.disk = (.ok s, after) ∧
        ∀ key, (s.get codec after key).1 = .ok (stored t.log key)) ↔ Settled codec t.log) := by
  refine ⟨fun s hs key => h.reads hcodec hs key, fun options => ⟨?_, fun hsettled => ?_⟩⟩
  · rintro ⟨s, after, hout, -⟩
    obtain ⟨L, index, hheld, -, -⟩ := h
    exact settled_of_reopen root hheld hinj ⟨s, congrArg Prod.fst hout⟩
  · exact h.reopens root hcodec hinj hsettled options

/-- The store refines a map: on every run of successful calls it reads as the
map of its calls, and it is reopened, as the same map, exactly when the
directory is settled. -/
theorem cold_refines_map (hcodec : codec.RoundTrips) {classes : Set String}
    (hinj : Set.InjOn (classDirectory codec) classes) {t : System}
    (ht : (cold codec root).Reach (Orderly codec classes) System.start t) :
    (∀ s, t.store = some s → ∀ key, (s.get codec t.disk key).1 = .ok (stored t.log key)) ∧
      (∀ options, (∃ s after, openWithLimit root options t.disk = (.ok s, after) ∧
        ∀ key, (s.get codec after key).1 = .ok (stored t.log key)) ↔ Settled codec t.log) :=
  (orderly_consistent codec root hinj (start_consistent classes True) ht).refines root hcodec hinj

/-- Decides `Orderly` for the sample runs, which open a new directory once. -/
def orderly? (t : System) : Action → Bool
  | .get _ => true
  | .put key entry fault => (entry.className == "a" || entry.className == "b") &&
    t.store.all fun s => (s.put sampleCodec t.disk key entry fault).1.isOk
  | .remove key fault => t.store.all fun s => (s.remove sampleCodec t.disk key fault).1.isOk
  | .reopen _ => t.log.isEmpty

theorem orderly_of {t : System} {a : Action} (h : orderly? t a = true) :
    Orderly sampleCodec {"a", "b"} t a := by
  refine ⟨fun key entry fault ha => ?_, ?_, fun options ha key entry hstored => ?_⟩
  · subst ha
    rw [orderly?, Bool.and_eq_true, Bool.or_eq_true, beq_iff_eq, beq_iff_eq] at h
    exact h.1
  · cases a with
    | get key => trivial
    | reopen options => trivial
    | put key entry fault =>
      intro s hs
      rw [orderly?, Bool.and_eq_true, hs] at h
      exact ok_of_isOk h.2
    | remove key fault =>
      intro s hs
      rw [orderly?, hs] at h
      exact ok_of_isOk h
  · subst ha
    rw [List.isEmpty_iff.mp h] at hstored
    cases hstored

def sampleOptions : Options := ⟨4096, true, none⟩

theorem cold_refines_map_sample : ∃ t s,
    (cold sampleCodec "cold").Reach (Orderly sampleCodec {"a", "b"}) System.start t ∧
      t.store = some s ∧ (s.get sampleCodec t.disk "k").1 = .ok (stored t.log "k") := by
  have hrun : (((cold sampleCodec "cold").guarded orderly?).exec System.start
      [.reopen sampleOptions, .put "k" ⟨"a", .null⟩ none]).any (fun t => t.store.isSome) = true := by
    decide +kernel
  obtain ⟨t, hexec, hopen⟩ := (Option.any_eq_true _ _).mp hrun
  obtain ⟨s, hs⟩ := Option.isSome_iff_exists.mp hopen
  have ht := Machine.Reach.of_guarded (fun _ _ => orderly_of) _ hexec
  exact ⟨t, s, ht, hs, (cold_refines_map sampleCodec "cold" sampleCodec_roundTrips
    sample_directories ht).1 s hs "k"⟩

/-- A key put under `a`, removed and put under `b`, whose directory sorts before
that of `a`: the directory cannot be opened again. -/
theorem cold_reopen_fails : sampleCodec.RoundTrips ∧
    Set.InjOn (classDirectory sampleCodec) ({"a", "b"} : Set String) ∧
    ∃ t, (cold sampleCodec "cold").Reach (Orderly sampleCodec {"a", "b"}) System.start t ∧
      ∀ s, (openWithLimit "cold" sampleOptions t.disk).1 ≠ .ok s := by
  refine ⟨sampleCodec_roundTrips, sample_directories, ?_⟩
  have hrun : (((cold sampleCodec "cold").guarded orderly?).exec System.start
      [.reopen sampleOptions, .put "k" ⟨"a", .null⟩ none, .remove "k" none,
        .put "k" ⟨"b", .bool true⟩ none]).any
      (fun t => !(openWithLimit "cold" sampleOptions t.disk).1.isOk) = true := by
    decide +kernel
  obtain ⟨t, hexec, hfail⟩ := (Option.any_eq_true _ _).mp hrun
  refine ⟨t, Machine.Reach.of_guarded (fun _ _ => orderly_of) _ hexec, fun s hs => ?_⟩
  rw [hs] at hfail
  cases hfail

/-! ### Failed appends -/

/-- Through failed appends that are contained, every stored key reads as it was
stored, its location names a record of the key, and a settled directory is
reopened with the same map. -/
theorem cold_kept_through_failures (hcodec : codec.RoundTrips) {classes : Set String}
    (hinj : Set.InjOn (classDirectory codec) classes) {t : System}
    (ht : (cold codec root).Reach (Contained codec classes) System.start t) :
    (∀ s, t.store = some s →
      (∀ key, (s.get codec t.disk key).1 = .ok (stored t.log key)) ∧
      ∀ key location, Dict.get? s.index key = some location →
        ∃ (r : Record codec) (bytes : Bytes), r.key = key ∧
          t.disk.file? location.path = some bytes ∧
          slice bytes location.offset location.totalLen = r.bytes) ∧
    (Settled codec t.log → ∀ options, ∃ s after,
      openWithLimit root options t.disk = (.ok s, after) ∧
        ∀ key, (s.get codec after key).1 = .ok (stored t.log key)) := by
  have h : Consistent codec classes False t :=
    ht.invariant (start_consistent classes False) fun _ _ _ h hok hstep =>
      step_consistent root hinj h hok False.elim hstep
  refine ⟨fun s hs => ⟨fun key => h.reads hcodec hs key, fun key location hl => ?_⟩,
    fun hsettled options => h.reopens root hcodec hinj hsettled options⟩
  obtain ⟨L, index, hheld, -, hopen⟩ := h
  obtain ⟨r, v, hat, hkey, -, -⟩ := hheld.reads key location (((hopen s hs).agrees key).symm.trans hl)
  obtain ⟨bytes, hfile, -, hslice⟩ := hheld.describes.slice_at hat
  exact ⟨r, bytes, hkey, hfile, hslice⟩

/-- Decides `AppendContained`. -/
def appendContained? (s : SegmentedColdStore) (disk : Disk) (key c : String) (value : Option Value)
    (fault : Option Fault) : Bool :=
  match encodeRecord codec key c value with
  | .error _ => true
  | .ok encoded =>
    let bytes := recordBytes key c encoded
    let writer := s.chooseWriter codec disk c bytes.length
    s.exceedsQuota value bytes.length || ((!Fault.mayWrite fault || writer.size == disk.len writer.path) &&
      match fault with
      | some (.torn n _) => (findRecord (bytes.take n) 0).isNone
      | _ => true)

theorem appendContained_of {codec : Codec} {s : SegmentedColdStore} {disk : Disk} {key c : String}
    {value : Option Value} {fault : Option Fault}
    (h : appendContained? codec s disk key c value fault = true) :
    AppendContained codec s disk key c value fault := by
  rintro r rfl rfl rfl hquota
  rw [appendContained?, r.encodes] at h
  dsimp only at h
  have hbytes : recordBytes r.key r.className r.encoded = r.bytes := rfl
  rw [hbytes, hquota, Bool.false_or, Bool.and_eq_true, Bool.or_eq_true, Bool.not_eq_true',
    beq_iff_eq] at h
  refine ⟨fun hmay => h.1.resolve_left fun hnot => ?_, fun n text hfault => ?_⟩
  · rw [hmay] at hnot
    cases hnot
  · have hnone := h.2
    rw [hfault] at hnone
    exact Option.isNone_iff_eq_none.mp hnone

def contained? (t : System) : Action → Bool
  | .get _ => true
  | .put key entry fault => (entry.className == "a" || entry.className == "b") &&
    t.store.all fun s => appendContained? sampleCodec s t.disk key entry.className (some entry.value)
      fault
  | .remove _ _ => false
  | .reopen _ => t.log.isEmpty

theorem contained_of {t : System} {a : Action} (h : contained? t a = true) :
    Contained sampleCodec {"a", "b"} t a := by
  cases a with
  | get key => trivial
  | remove key fault => cases h
  | put key entry fault =>
    rw [contained?, Bool.and_eq_true, Bool.or_eq_true, beq_iff_eq, beq_iff_eq] at h
    refine ⟨h.1, fun s hs => ?_⟩
    rw [hs] at h
    exact appendContained_of h.2
  | reopen options =>
    intro key entry hstored
    rw [List.isEmpty_iff.mp h] at hstored
    cases hstored

theorem cold_kept_through_failures_sample : ∃ t s,
    (cold sampleCodec "cold").Reach (Contained sampleCodec {"a", "b"}) System.start t ∧
      t.store = some s ∧ (s.get sampleCodec t.disk "k").1 = .ok (stored t.log "k") := by
  have hrun : (((cold sampleCodec "cold").guarded contained?).exec System.start
      [.reopen sampleOptions, .put "k" ⟨"a", .null⟩ none,
        .put "j" ⟨"a", .null⟩ (some (.torn 7 "No space left on device (os error 28)")),
        .get "k"]).any (fun t => t.store.isSome) = true := by
    decide +kernel
  obtain ⟨t, hexec, hopen⟩ := (Option.any_eq_true _ _).mp hrun
  obtain ⟨s, hs⟩ := Option.isSome_iff_exists.mp hopen
  have ht := Machine.Reach.of_guarded (fun _ _ => contained_of) _ hexec
  exact ⟨t, s, ht, hs, ((cold_kept_through_failures sampleCodec "cold" sampleCodec_roundTrips
    sample_directories ht).1 s hs).1 "k"⟩

/-- A failed append that left one byte puts the next successful one out of
reach, and one that failed at `sync_all` has taken effect once the directory is
reopened. -/
theorem failed_append_damages : sampleCodec.RoundTrips ∧
    (∃ t s, (cold sampleCodec "cold").Reachable System.start t ∧ t.store = some s ∧
      ∃ e, stored t.log "m" = some e ∧ (s.get sampleCodec t.disk "m").1 ≠ .ok (some e)) ∧
    ∃ t s, (cold sampleCodec "cold").Reachable System.start t ∧
      (openWithLimit "cold" sampleOptions t.disk).1 = .ok s ∧
      ∃ e, stored t.log "k" = some e ∧
        (s.get sampleCodec (openWithLimit "cold" sampleOptions t.disk).2 "k").1 ≠ .ok (some e) := by
  refine ⟨sampleCodec_roundTrips, ?_, ?_⟩
  · have hrun : ((cold sampleCodec "cold").exec System.start
        [.reopen sampleOptions, .put "k" ⟨"a", .null⟩ none,
          .put "j" ⟨"a", .null⟩ (some (.torn 1 "No space left on device (os error 28)")),
          .put "m" ⟨"a", .bool true⟩ none]).any (fun t => (stored t.log "m").isSome &&
            t.store.any fun s => !(s.get sampleCodec t.disk "m").1.isOk) = true := by
      decide +kernel
    obtain ⟨t, hexec, hfacts⟩ := (Option.any_eq_true _ _).mp hrun
    rw [Bool.and_eq_true] at hfacts
    obtain ⟨e, he⟩ := Option.isSome_iff_exists.mp hfacts.1
    obtain ⟨s, hs, hget⟩ := (Option.any_eq_true _ _).mp hfacts.2
    refine ⟨t, s, .of_exec _ hexec fun _ _ _ => trivial, hs, e, he, fun hok => ?_⟩
    rw [hok] at hget
    cases hget
  · have hrun : ((cold sampleCodec "cold").exec System.start
        [.reopen sampleOptions, .put "k" ⟨"a", .null⟩ none,
          .put "k" ⟨"a", .bool true⟩ (some (.torn 60 "Input/output error (os error 5)"))]).any
        (fun t => (stored t.log "k").any (fun e => e.value.render = "null") &&
          (openWithLimit "cold" sampleOptions t.disk).1.toOption.any fun s =>
            (s.get sampleCodec (openWithLimit "cold" sampleOptions t.disk).2 "k").1.toOption.any
              fun e => e.any fun e => e.value.render = "true") = true := by
      decide +kernel
    obtain ⟨t, hexec, hfacts⟩ := (Option.any_eq_true _ _).mp hrun
    rw [Bool.and_eq_true] at hfacts
    obtain ⟨e, he, hnull⟩ := (Option.any_eq_true _ _).mp hfacts.1
    obtain ⟨s, hs, hget⟩ := (Option.any_eq_true _ _).mp hfacts.2
    have hopen : (openWithLimit "cold" sampleOptions t.disk).1 = .ok s := by
      cases hout : (openWithLimit "cold" sampleOptions t.disk).1 with
      | error error =>
        rw [hout] at hs
        cases hs
      | ok s' =>
        rw [hout] at hs
        rw [Option.some.inj hs]
    refine ⟨t, s, .of_exec _ hexec fun _ _ _ => trivial, hopen, e, he, fun hok => ?_⟩
    obtain ⟨got, hgot, htrue⟩ := (Option.any_eq_true _ _).mp hget
    rw [hok] at hgot
    obtain ⟨e', he', htrue⟩ := (Option.any_eq_true _ _).mp htrue
    rw [← Option.some.inj hgot] at he'
    rw [← Option.some.inj he'] at htrue
    rw [decide_eq_true_eq] at hnull htrue
    rw [hnull] at htrue
    exact absurd htrue (by decide)

end Jaiba.Memory.Cold
