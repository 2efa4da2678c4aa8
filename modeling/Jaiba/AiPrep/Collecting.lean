import Jaiba.AiPrep.Manifest
import Jaiba.Lib.Machine

/-!
# Collected groups

The packets of any groups arrive in any order, some of them again. While each
group that completes meets no failure and is the only one, its pieces are in
their files; a group leaves the collector before its files are written, and all
groups are written to the same files.
-/

namespace Jaiba.AiPrep
open Jaiba.Lib

/-- A collector with what it has taken: the pieces whose `execute` returned `Ok`, and the groups
that were completed so. -/
structure Run where
  collector : Collector
  accepted : List Piece
  completed : List String

/-- A packet, or the retry of one, and the operations that fail. -/
structure Delivery where
  packet : DataPacket
  faults : Faults

def Run.start (files : Files) : Run := ⟨⟨fun _ => none, files⟩, [], []⟩

namespace AiExportManifest

variable (p : AiExportManifest) (codec : Codec) (processorId : String)

/-- The piece that a packet brings to the collector. -/
def taken (packet : DataPacket) : Option Piece :=
  if p.collectSplits then (pieceOf processorId packet).toOption else none

def deliver (r : Run) (d : Delivery) : Run :=
  let out := p.execute codec processorId d.faults d.packet r.collector
  match p.taken processorId d.packet with
  | none => { r with collector := out.2 }
  | some piece =>
    if out.1.isOk then
      { collector := out.2
        accepted := r.accepted ++ [piece]
        completed := if complete (gathered r.collector piece) then piece.group :: r.completed else r.completed }
    else { r with collector := out.2 }

def machine : Machine Run Delivery := ⟨fun r d => some (p.deliver codec processorId r d)⟩

/-- The four paths name four files. -/
structure PathsDiffer : Prop where
  splits : ∀ s t path, p.splitPath s = some path → p.splitPath t = some path → s = t
  manifest : ∀ s, p.splitPath s ≠ some p.path

/-- Every piece of a completed group is in its file and counted in the manifest. -/
structure Kept (r : Run) : Prop where
  written : ∀ piece ∈ r.accepted, piece.group ∈ r.completed → ∃ path,
    p.splitPath piece.split = some path ∧ r.collector.files path = some (.csv piece.records)
  counted : ∀ piece ∈ r.accepted, piece.group ∈ r.completed → ∃ m counts,
    r.collector.files p.path = some (.manifest m) ∧ m.splitCounts = some counts ∧
      counts piece.split = piece.records.length ∧
      m.rowCount = counts .train + counts .validation + counts .test

/-- A delivery that fails can be made again. -/
def Retryable (r : Run) (d : Delivery) : Prop :=
  ∀ e, (p.execute codec processorId d.faults d.packet r.collector).1 = .error e →
    (p.execute codec processorId d.faults d.packet r.collector).2.pending = r.collector.pending

/-- A piece that comes again is the same; a group completes without a failure, and no other
group did. -/
structure Undisturbed (r : Run) (d : Delivery) : Prop where
  repeated : ∀ piece, p.taken processorId d.packet = some piece → ∀ old ∈ r.accepted,
    old.group = piece.group → old.split = piece.split → old.records = piece.records
  completing : ∀ piece, p.taken processorId d.packet = some piece →
    complete (gathered r.collector piece) = true →
      (∀ operation, d.faults.error operation = none) ∧ (∀ g ∈ r.completed, g = piece.group) ∧
        p.PathsDiffer

variable {p codec processorId}

/-! ### One export -/

theorem splitPath_some (h : p.collectSplits = true) (s : Split) : ∃ path, p.splitPath s = some path := by
  obtain ⟨htrain, hvalidation, htest⟩ := p.collects h
  cases s with
  | train => exact Option.ne_none_iff_exists'.mp htrain
  | validation => exact Option.ne_none_iff_exists'.mp hvalidation
  | test => exact Option.ne_none_iff_exists'.mp htest

theorem writeSplit_ok {faults : Faults} (hfaults : ∀ operation, faults.error operation = none)
    {pieces : Split → List Json} {s : Split} {path : String} (hpath : p.splitPath s = some path)
    (files : Files) : p.writeSplit faults pieces s files =
      (.ok (), Function.update files path (some (.csv (pieces s)))) := by
  rw [writeSplit, hpath]
  dsimp only
  rw [hfaults (.encode s), hfaults (.createDir s), hfaults (.write s)]

/-- An export without a failure leaves the pieces in their files and their counts in the
manifest. -/
theorem writeCollectedSplits_ok {faults : Faults} (hfaults : ∀ operation, faults.error operation = none)
    (hcollect : p.collectSplits = true) (hpaths : p.PathsDiffer) (pieces : Split → List Json) (files : Files) :
    ∃ emitted files', p.writeCollectedSplits codec faults pieces files = (.ok emitted, files') ∧
      (∀ s path, p.splitPath s = some path → files' path = some (.csv (pieces s))) ∧
      files' p.path = some (.manifest (p.manifestOf codec
        (pieces .train ++ pieces .validation ++ pieces .test) none (some fun s => (pieces s).length))) := by
  obtain ⟨train, htrain⟩ := splitPath_some hcollect .train
  obtain ⟨validation, hvalidation⟩ := splitPath_some hcollect .validation
  obtain ⟨test, htest⟩ := splitPath_some hcollect .test
  have hapart : ∀ s t path path', p.splitPath s = some path → p.splitPath t = some path' → s ≠ t →
      path ≠ path' := by
    intro s t path path' hs ht hne heq
    exact hne (hpaths.splits s t path hs (heq ▸ ht))
  have hmanifest : ∀ s path, p.splitPath s = some path → path ≠ p.path := by
    intro s path hs heq
    exact hpaths.manifest s (heq ▸ hs)
  refine ⟨pieces .train ++ pieces .validation ++ pieces .test, Function.update (Function.update
    (Function.update (Function.update files train (some (.csv (pieces .train)))) validation
      (some (.csv (pieces .validation)))) test (some (.csv (pieces .test)))) p.path
    (some (.manifest (p.manifestOf codec (pieces .train ++ pieces .validation ++ pieces .test) none
      (some fun s => (pieces s).length)))), ?_, fun s path hs => ?_, Function.update_self ..⟩
  · simp only [writeCollectedSplits, writeSplits, writeSplit_ok hfaults htrain,
      writeSplit_ok hfaults hvalidation, writeSplit_ok hfaults htest, writeManifest, hfaults]
  · rw [Function.update_of_ne (hmanifest s path hs)]
    cases s with
    | train =>
      rw [htrain] at hs
      cases hs
      rw [Function.update_of_ne (hapart .train .test _ _ htrain htest (by decide)),
        Function.update_of_ne (hapart .train .validation _ _ htrain hvalidation (by decide)),
        Function.update_self]
    | validation =>
      rw [hvalidation] at hs
      cases hs
      rw [Function.update_of_ne (hapart .validation .test _ _ hvalidation htest (by decide)),
        Function.update_self]
    | test =>
      rw [htest] at hs
      cases hs
      rw [Function.update_self]

/-! ### One delivery -/

theorem taken_some {packet : DataPacket} {piece : Piece} (h : p.taken processorId packet = some piece) :
    p.collectSplits = true ∧ pieceOf processorId packet = .ok piece := by
  unfold taken at h
  split at h
  next hcollect =>
    refine ⟨hcollect, ?_⟩
    cases hpiece : pieceOf processorId packet with
    | error e =>
      rw [hpiece] at h
      cases h
    | ok found =>
      rw [hpiece] at h
      cases h
      rfl
  · cases h

theorem execute_taken {packet : DataPacket} {piece : Piece} (h : p.taken processorId packet = some piece)
    (faults : Faults) (s : Collector) :
    p.execute codec processorId faults packet s = p.collect codec faults piece s := by
  obtain ⟨hcollect, hpiece⟩ := taken_some h
  rw [execute, if_pos hcollect, hpiece]

/-- A packet without a piece does not touch the collector. -/
theorem execute_untaken {packet : DataPacket} (h : p.taken processorId packet = none) (faults : Faults)
    (s : Collector) : (p.execute codec processorId faults packet s).2.pending = s.pending ∧
      (p.collectSplits = true → (p.execute codec processorId faults packet s).2 = s) := by
  unfold taken at h
  by_cases hcollect : p.collectSplits = true
  · rw [if_pos hcollect] at h
    cases hpiece : pieceOf processorId packet with
    | error e =>
      rw [execute, if_pos hcollect, hpiece]
      exact ⟨rfl, fun _ => rfl⟩
    | ok piece =>
      rw [hpiece] at h
      cases h
  · refine ⟨?_, fun hyes => absurd hyes hcollect⟩
    rw [execute, if_neg hcollect]
    cases checkedRecords processorId packet with
    | error e => rfl
    | ok records =>
      dsimp only
      obtain ⟨result, files⟩ := p.writeManifest codec faults records (packet.attributes.lookup "ai.split")
        none s.files
      cases result with
      | error e => rfl
      | ok =>
        dsimp only
        cases faults.error .emit with
        | some e => rfl
        | none => rfl

theorem collect_incomplete {faults : Faults} {piece : Piece} {s : Collector}
    (h : complete (gathered s piece) = false) : p.collect codec faults piece s =
      (.ok none, ⟨Function.update s.pending piece.group (some (gathered s piece)), s.files⟩) := by
  unfold collect
  dsimp only
  rw [h]
  rfl

theorem complete_some {splits : Splits} (h : complete splits = true) (s : Split) :
    ∃ records, splits s = some records := by
  unfold complete at h
  rw [Bool.and_eq_true, Bool.and_eq_true] at h
  cases s with
  | train => exact Option.isSome_iff_exists.mp h.1.1
  | validation => exact Option.isSome_iff_exists.mp h.1.2
  | test => exact Option.isSome_iff_exists.mp h.2

/-- The pieces of a group are those that were waiting and the new one. -/
theorem gathered_some {s : Collector} {piece : Piece} {split : Split} {records : List Json}
    (h : gathered s piece split = some records) :
    (split = piece.split ∧ records = piece.records) ∨
      ∃ splits, s.pending piece.group = some splits ∧ splits split = some records := by
  unfold gathered at h
  by_cases heq : split = piece.split
  · rw [heq, Function.update_self] at h
    cases h
    exact .inl ⟨heq, rfl⟩
  · rw [Function.update_of_ne heq] at h
    cases hpending : s.pending piece.group with
    | none =>
      rw [hpending] at h
      cases h
    | some splits =>
      rw [hpending] at h
      exact .inr ⟨splits, rfl, h⟩

/-! ### Runs -/

/-- What every run keeps: the collector holds pieces that were taken, and the files hold those
of the group that was completed. -/
structure Inv (p : AiExportManifest) (codec : Codec) (r : Run) : Prop where
  idle : p.collectSplits = false → r.accepted = []
  pending : ∀ g splits, r.collector.pending g = some splits → ∀ s records, splits s = some records →
    (⟨g, s, records⟩ : Piece) ∈ r.accepted
  same : ∀ a ∈ r.accepted, ∀ b ∈ r.accepted, a.group = b.group → a.split = b.split → a.records = b.records
  files : ∀ g ∈ r.completed, ∃ pieces : Split → List Json,
    (∀ s, (⟨g, s, pieces s⟩ : Piece) ∈ r.accepted) ∧
      (∀ s path, p.splitPath s = some path → r.collector.files path = some (.csv (pieces s))) ∧
      r.collector.files p.path = some (.manifest (p.manifestOf codec
        (pieces .train ++ pieces .validation ++ pieces .test) none (some fun s => (pieces s).length)))

theorem Inv.kept {r : Run} (h : Inv p codec r) : Kept p r := by
  have hpieces : ∀ piece ∈ r.accepted, piece.group ∈ r.completed → ∃ pieces : Split → List Json,
      pieces piece.split = piece.records ∧
      (∀ s path, p.splitPath s = some path → r.collector.files path = some (.csv (pieces s))) ∧
      r.collector.files p.path = some (.manifest (p.manifestOf codec
        (pieces .train ++ pieces .validation ++ pieces .test) none (some fun s => (pieces s).length))) := by
    intro piece hpiece hgroup
    obtain ⟨pieces, haccepted, hfiles, hmanifest⟩ := h.files piece.group hgroup
    exact ⟨pieces, h.same _ (haccepted piece.split) piece hpiece rfl rfl, hfiles, hmanifest⟩
  refine ⟨fun piece hpiece hgroup => ?_, fun piece hpiece hgroup => ?_⟩
  · obtain ⟨pieces, hrecords, hfiles, -⟩ := hpieces piece hpiece hgroup
    have hcollect : p.collectSplits = true := by
      cases hidle : p.collectSplits with
      | true => rfl
      | false =>
        rw [h.idle hidle] at hpiece
        cases hpiece
    obtain ⟨path, hpath⟩ := splitPath_some hcollect piece.split
    refine ⟨path, hpath, ?_⟩
    rw [hfiles piece.split path hpath, hrecords]
  · obtain ⟨pieces, hrecords, -, hmanifest⟩ := hpieces piece hpiece hgroup
    refine ⟨_, fun s => (pieces s).length, hmanifest, rfl, congrArg List.length hrecords, ?_⟩
    change (pieces .train ++ pieces .validation ++ pieces .test).length = _
    rw [List.length_append, List.length_append]

/-- A piece that is taken is as those of its group and split before. -/
theorem Inv.same_taken {r : Run} {d : Delivery} {piece : Piece} (h : Inv p codec r)
    (hok : Undisturbed p processorId r d) (htaken : p.taken processorId d.packet = some piece) :
    ∀ a ∈ r.accepted ++ [piece], ∀ b ∈ r.accepted ++ [piece], a.group = b.group → a.split = b.split →
      a.records = b.records := by
  intro a ha b hb hgroup hsplit
  rcases List.mem_append.mp ha with ha | ha
  · rcases List.mem_append.mp hb with hb | hb
    · exact h.same a ha b hb hgroup hsplit
    · rw [List.mem_singleton.mp hb] at hgroup hsplit ⊢
      exact hok.repeated piece htaken a ha hgroup hsplit
  · rw [List.mem_singleton.mp ha] at hgroup hsplit ⊢
    rcases List.mem_append.mp hb with hb | hb
    · exact (hok.repeated piece htaken b hb hgroup.symm hsplit.symm).symm
    · rw [List.mem_singleton.mp hb]

theorem Inv.gathered {r : Run} {piece : Piece} (h : Inv p codec r) {split : Split} {records : List Json}
    (hgathered : AiExportManifest.gathered r.collector piece split = some records) :
    (⟨piece.group, split, records⟩ : Piece) ∈ r.accepted ++ [piece] := by
  rcases gathered_some hgathered with ⟨rfl, rfl⟩ | ⟨splits, hsplits, hsome⟩
  · exact List.mem_append_right _ List.mem_cons_self
  · exact List.mem_append_left _ (h.pending piece.group splits hsplits split records hsome)

theorem Inv.deliver {r : Run} {d : Delivery} (h : Inv p codec r) (hok : Undisturbed p processorId r d) :
    Inv p codec (p.deliver codec processorId r d) := by
  cases htaken : p.taken processorId d.packet with
  | none =>
    have hdeliver : p.deliver codec processorId r d =
        { r with collector := (p.execute codec processorId d.faults d.packet r.collector).2 } := by
      rw [AiExportManifest.deliver, htaken]
    obtain ⟨hpending, hsame⟩ := @execute_untaken p codec processorId d.packet htaken d.faults r.collector
    rw [hdeliver]
    refine ⟨h.idle, fun g splits hg => ?_, h.same, fun g hg => ?_⟩
    · rw [hpending] at hg
      exact h.pending g splits hg
    · obtain ⟨pieces, haccepted, hrest⟩ := h.files g hg
      have hcollect : p.collectSplits = true := by
        cases hidle : p.collectSplits with
        | true => rfl
        | false =>
          have hnone := haccepted .train
          rw [h.idle hidle] at hnone
          cases hnone
      rw [hsame hcollect]
      exact ⟨pieces, haccepted, hrest⟩
  | some piece =>
    have hcollect := (taken_some htaken).1
    have hnotIdle : p.collectSplits = false → r.accepted ++ [piece] = [] := by
      intro hidle
      rw [hcollect] at hidle
      cases hidle
    cases hcomplete : complete (AiExportManifest.gathered r.collector piece) with
    | false =>
      have hdeliver : p.deliver codec processorId r d =
          ⟨⟨Function.update r.collector.pending piece.group (some (AiExportManifest.gathered r.collector piece)),
            r.collector.files⟩, r.accepted ++ [piece], r.completed⟩ := by
        rw [AiExportManifest.deliver, htaken]
        dsimp only
        rw [execute_taken htaken, collect_incomplete hcomplete, hcomplete]
        rfl
      rw [hdeliver]
      refine ⟨hnotIdle, fun g splits hg s records hs => ?_, h.same_taken hok htaken, fun g hg => ?_⟩
      · dsimp only at hg
        by_cases hgroup : g = piece.group
        · rw [hgroup, Function.update_self] at hg
          cases hg
          rw [hgroup]
          exact h.gathered hs
        · rw [Function.update_of_ne hgroup] at hg
          exact List.mem_append_left _ (h.pending g splits hg s records hs)
      · obtain ⟨pieces, haccepted, hrest⟩ := h.files g hg
        exact ⟨pieces, fun s => List.mem_append_left _ (haccepted s), hrest⟩
    | true =>
      obtain ⟨hfaults, honly, hpaths⟩ := hok.completing piece htaken hcomplete
      obtain ⟨emitted, files, hwrite, hfiles, hmanifest⟩ := @writeCollectedSplits_ok p codec d.faults hfaults
        hcollect hpaths (fun s => (AiExportManifest.gathered r.collector piece s).getD []) r.collector.files
      have hdeliver : p.deliver codec processorId r d =
          ⟨⟨Function.update r.collector.pending piece.group none, files⟩, r.accepted ++ [piece],
            piece.group :: r.completed⟩ := by
        rw [AiExportManifest.deliver, htaken]
        dsimp only
        rw [execute_taken htaken, hcomplete, collect, if_pos hcomplete, hwrite]
        rfl
      rw [hdeliver]
      refine ⟨hnotIdle, fun g splits hg s records hs => ?_, h.same_taken hok htaken, fun g hg => ?_⟩
      · dsimp only at hg
        by_cases hgroup : g = piece.group
        · rw [hgroup, Function.update_self] at hg
          cases hg
        · rw [Function.update_of_ne hgroup] at hg
          exact List.mem_append_left _ (h.pending g splits hg s records hs)
      · have hg' : g = piece.group := by
          rcases List.mem_cons.mp hg with heq | hmem
          · exact heq
          · exact honly g hmem
        refine ⟨fun s => (AiExportManifest.gathered r.collector piece s).getD [], fun s => ?_, hfiles, hmanifest⟩
        obtain ⟨records, hrecords⟩ := complete_some hcomplete s
        change (⟨g, s, (AiExportManifest.gathered r.collector piece s).getD []⟩ : Piece) ∈ r.accepted ++ [piece]
        rw [hg', hrecords]
        exact h.gathered hrecords

theorem Inv.reach {files : Files} {r : Run}
    (h : (p.machine codec processorId).Reach (Undisturbed p processorId) (Run.start files) r) :
    Inv p codec r := by
  refine Machine.Reach.invariant h ⟨fun _ => rfl, fun g splits hg => ?_, fun a ha => ?_, fun g hg => ?_⟩
    fun s d t hinv hok hstep => ?_
  · cases hg
  · cases ha
  · cases hg
  · cases Option.some.inj hstep
    exact hinv.deliver hok

/-- A delivery fails only before it changes the collector. -/
theorem retryable {r : Run} {d : Delivery} (hok : Undisturbed p processorId r d) :
    Retryable p codec processorId r d := by
  intro e he
  cases htaken : p.taken processorId d.packet with
  | none => exact (execute_untaken htaken d.faults r.collector).1
  | some piece =>
    rw [execute_taken htaken] at he ⊢
    cases hcomplete : complete (gathered r.collector piece) with
    | false =>
      rw [collect_incomplete hcomplete] at he
      cases he
    | true =>
      obtain ⟨hfaults, -, hpaths⟩ := hok.completing piece htaken hcomplete
      obtain ⟨emitted, files, hwrite, -, -⟩ := @writeCollectedSplits_ok p codec d.faults hfaults
        (taken_some htaken).1 hpaths (fun s => (gathered r.collector piece s).getD []) r.collector.files
      rw [collect, if_pos hcomplete, hwrite] at he
      cases he

/-- An export that fails takes its group out of the collector. -/
theorem not_retryable {r : Run} {d : Delivery} {piece : Piece}
    (htaken : p.taken processorId d.packet = some piece)
    (hcomplete : complete (gathered r.collector piece) = true) {e : FlowError}
    (hfailed : (p.execute codec processorId d.faults d.packet r.collector).1 = .error e) :
    ¬ Retryable p codec processorId r d := by
  intro hretryable
  have hsame := congrFun (hretryable e hfailed) piece.group
  have hgone : (p.execute codec processorId d.faults d.packet r.collector).2.pending piece.group = none := by
    rw [execute_taken htaken, collect, if_pos hcomplete]
    obtain ⟨result, files⟩ := p.writeCollectedSplits codec d.faults
      (fun split => (gathered r.collector piece split).getD []) r.collector.files
    cases result with
    | error e => exact Function.update_self ..
    | ok emitted => exact Function.update_self ..
  rw [hgone] at hsame
  -- some other piece of the group was waiting
  have hother : ∃ s, s ≠ piece.split := by
    cases piece.split with
    | train => exact ⟨.test, by decide⟩
    | validation => exact ⟨.test, by decide⟩
    | test => exact ⟨.train, by decide⟩
  obtain ⟨s, hs⟩ := hother
  obtain ⟨records, hrecords⟩ := complete_some hcomplete s
  rcases gathered_some hrecords with ⟨heq, -⟩ | ⟨splits, hsplits, -⟩
  · exact hs heq
  · rw [hsplits] at hsame
    cases hsame

end AiExportManifest

/-- While each group completes without a failure and alone, its pieces are kept, and a delivery
that fails can be made again. -/
theorem collected_kept (p : AiExportManifest) (codec : Codec) (processorId : String) (files : Files) (r : Run)
    (h : (p.machine codec processorId).Reach (p.Undisturbed processorId) (Run.start files) r) :
    p.Kept r ∧ ∀ d, p.Undisturbed processorId r d → p.Retryable codec processorId r d :=
  ⟨(AiExportManifest.Inv.reach h).kept, fun _ hok => AiExportManifest.retryable hok⟩

/-! ### One group -/

def noFaults : Faults := ⟨fun _ => none, fun _ => none⟩

def sampleManifest : AiExportManifest where
  path := "manifest.json"
  datasetName := "dataset"
  trainPath := some "train.csv"
  validationPath := some "validation.csv"
  testPath := some "test.csv"
  collectSplits := true
  collects := fun _ => ⟨Option.some_ne_none _, Option.some_ne_none _, Option.some_ne_none _⟩

def sampleCodec : Codec where
  hexDigest := fun _ => ""
  recordsToVec := fun _ => []
  recordsFromSlice := fun _ => none
  attributesToString := fun _ => ""
  attributesFromStr := fun _ => none
  schemaToString := fun _ => ""
  schemaFromStr := fun _ => none
  parseUuid := fun _ => none
  sizeOfPacket := 0

/-- One record of each split. -/
def splitPacket (s : Split) : DataPacket :=
  ⟨s.name, [("ai.split", s.name), ("ai.split_group", "g")],
    .records [.object [("split", .string s.name)]], none, 1⟩

def splitPiece (s : Split) : Piece := ⟨"g", s, [.object [("split", .string s.name)]]⟩

theorem taken_splitPacket (s : Split) : sampleManifest.taken "manifest" (splitPacket s) = some (splitPiece s) := by
  cases s <;> rfl

def sampleRun (splits : List Split) : Run :=
  splits.foldl (fun r s => sampleManifest.deliver sampleCodec "manifest" r ⟨splitPacket s, noFaults⟩)
    (Run.start fun _ => none)

theorem sampleManifest_paths : sampleManifest.PathsDiffer := by
  refine ⟨fun s t path hs ht => ?_, fun s hs => ?_⟩
  · have hsame := hs.trans ht.symm
    revert hsame
    cases s <;> cases t <;> first | exact fun _ => rfl | decide
  · revert hs
    cases s <;> decide

theorem sampleRun_undisturbed {splits : List Split} {s : Split}
    (hnew : ∀ old ∈ (sampleRun splits).accepted, old.split ≠ s) (hnone : (sampleRun splits).completed = []) :
    sampleManifest.Undisturbed "manifest" (sampleRun splits) ⟨splitPacket s, noFaults⟩ := by
  refine ⟨fun piece hpiece old hold _ hsplit => ?_, fun piece _ _ => ⟨fun _ => rfl, fun g hg => ?_,
    sampleManifest_paths⟩⟩
  · rw [taken_splitPacket] at hpiece
    cases hpiece
    exact absurd hsplit (hnew old hold)
  · rw [hnone] at hg
    cases hg

theorem sampleRun_step {splits : List Split} {s : Split}
    (h : (sampleManifest.machine sampleCodec "manifest").Reach (sampleManifest.Undisturbed "manifest")
      (Run.start fun _ => none) (sampleRun splits))
    (hnew : ∀ old ∈ (sampleRun splits).accepted, old.split ≠ s) (hnone : (sampleRun splits).completed = []) :
    (sampleManifest.machine sampleCodec "manifest").Reach (sampleManifest.Undisturbed "manifest")
      (Run.start fun _ => none) (sampleRun (splits ++ [s])) := by
  have hnext : sampleRun (splits ++ [s]) = sampleManifest.deliver sampleCodec "manifest" (sampleRun splits)
      ⟨splitPacket s, noFaults⟩ := by
    unfold sampleRun
    rw [List.foldl_append]
    rfl
  rw [hnext]
  exact .step h (sampleRun_undisturbed hnew hnone) rfl

/-- The three pieces of a group. -/
theorem collected_kept_group : sampleManifest.Kept (sampleRun [.train, .validation, .test]) := by
  have htrain := @sampleRun_step [] .train .refl (fun old h => (by cases h)) rfl
  have hvalidation := @sampleRun_step [.train] .validation htrain
    (fun old h => (by rw [List.mem_singleton.mp h]; decide)) rfl
  have htest := @sampleRun_step [.train, .validation] .test hvalidation (fun old h => (by
    rcases List.mem_cons.mp h with rfl | h
    · decide
    · rw [List.mem_singleton.mp h]
      decide)) rfl
  exact (collected_kept sampleManifest sampleCodec "manifest" (fun _ => none) _ htest).1

/-- The last piece of a group, when a directory cannot be created. -/
def refusedDelivery : Delivery := ⟨splitPacket .test, ⟨fun operation =>
  if operation = .createDir .train then some (.io "permission denied") else none, fun _ => none⟩⟩

/-- A write that fails loses the pieces that were waiting. -/
theorem failed_export_loses_group :
    ¬ ∀ (p : AiExportManifest) (codec : Codec) (processorId : String) (files : Files) (r : Run),
      (p.machine codec processorId).Reachable (Run.start files) r →
        p.Kept r ∧ ∀ d, p.Retryable codec processorId r d := by
  intro hclaim
  have hreach : (sampleManifest.machine sampleCodec "manifest").Reachable (Run.start fun _ => none)
      (sampleRun [.train, .validation]) :=
    .of_exec [⟨splitPacket .train, noFaults⟩, ⟨splitPacket .validation, noFaults⟩] rfl fun _ _ _ => trivial
  have hretryable := (hclaim sampleManifest sampleCodec "manifest" (fun _ => none) _ hreach).2 refusedDelivery
  have hfailed : (sampleManifest.execute sampleCodec "manifest" refusedDelivery.faults refusedDelivery.packet
      (sampleRun [.train, .validation]).collector).1 = .error (.io "permission denied") := rfl
  exact AiExportManifest.not_retryable (taken_splitPacket .test) rfl hfailed hretryable

end Jaiba.AiPrep
