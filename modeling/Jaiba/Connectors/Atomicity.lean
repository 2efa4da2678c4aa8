import Jaiba.Connectors.Session

/-!
# Atomic writes

A write that fails leaves nothing of its records in the destination, and one
that succeeds leaves each of them once: so with every transaction, wherever the
failure. ClickHouse declares no transactions and inserts block by block.
-/

namespace Jaiba.Connectors
open Jaiba.Lib

/-- The contract of `DatabaseWriter::write`. -/
structure Atomic (kind : DatabaseKind) (request : WriteRequest) (records : List Json) (wire : Wire)
    (written : Written) : Prop where
  failed : ∀ e, written.1 = .error e → written.2.destination = wire.destination
  done : ∀ summary, written.1 = .ok summary → ∃ rows, records.mapM (kind.row request) = .ok rows ∧
    written.2.destination = wire.destination ++ rows

/-- A packet that is retried until its write succeeds is written once. -/
theorem Atomic.retried {kind : DatabaseKind} {request : WriteRequest} {records : List Json} {wire : Wire}
    {first second : Written} (hfirst : Atomic kind request records wire first)
    (hsecond : Atomic kind request records first.2 second) {e : FlowError} (he : first.1 = .error e)
    {summary : WriteSummary} (hs : second.1 = .ok summary) :
    ∃ rows, records.mapM (kind.row request) = .ok rows ∧
      second.2.destination = wire.destination ++ rows := by
  obtain ⟨rows, hrows, hdestination⟩ := hsecond.done summary hs
  rw [hfirst.failed e he] at hdestination
  exact ⟨rows, hrows, hdestination⟩

/-! ### Loops of calls -/

section calls
variable {ι : Type} {faults : Faults} {encode : ι → Except FlowError (List Row)}
  {count : ι → WriteSummary} {items : List ι} {summary : WriteSummary} {wire : Wire}

/-- Inside a transaction nothing reaches the destination. -/
theorem sendEach_execute :
    (sendEach faults Wire.execute encode count items summary wire).2.destination =
        wire.destination ∧
      ∀ s, (sendEach faults Wire.execute encode count items summary wire).1 = .ok s →
        ∃ rows, items.mapM encode = .ok rows ∧
          (sendEach faults Wire.execute encode count items summary wire).2.pending =
            wire.pending ++ rows.flatten := by
  induction items generalizing summary wire with
  | nil => exact ⟨rfl, fun s _ => ⟨[], rfl, (List.append_nil _).symm⟩⟩
  | cons item items ih =>
    unfold sendEach
    cases hitem : encode item with
    | error e => exact ⟨rfl, fun s h => (by cases h)⟩
    | ok rows =>
      unfold call
      cases hfault : faults wire.calls with
      | some e => exact ⟨rfl, fun s h => (by cases h)⟩
      | none =>
        dsimp only
        obtain ⟨hdest, hdone⟩ := @ih ⟨summary.rows + (count item).rows,
          summary.batches + (count item).batches⟩
          { (wire.execute rows) with calls := wire.calls + 1 }
        refine ⟨hdest, fun s h => ?_⟩
        obtain ⟨rest, hrest, hpending⟩ := hdone s h
        refine ⟨rows :: rest, ?_, ?_⟩
        · rw [List.mapM_cons, hitem, hrest]
          rfl
        · rw [hpending, List.flatten_cons, ← List.append_assoc]
          rfl

/-- The commit is the only call of a transaction that reaches the destination. -/
theorem commitAfter_cases (written : Written) :
    ((commitAfter faults written).2.destination = written.2.destination ∧
      ∃ e, (commitAfter faults written).1 = .error e) ∨
    (commitAfter faults written).2.destination =
        written.2.destination ++ written.2.pending ∧
      ∃ s, written.1 = .ok s ∧ (commitAfter faults written).1 = .ok s := by
  obtain ⟨result, wire⟩ := written
  cases result with
  | error e => exact .inl ⟨rfl, e, rfl⟩
  | ok s =>
    unfold commitAfter call
    dsimp only
    cases hfault : faults wire.calls with
    | some e => exact .inl ⟨rfl, e, rfl⟩
    | none => exact .inr ⟨rfl, s, rfl, rfl⟩

/-- The session opens with an empty transaction, or the write fails. -/
theorem opened_cases (setup : List (Wire → Wire)) (hsetup : ∀ effect ∈ setup, effect = Wire.idle)
    (work : Wire → Written) (wire : Wire) :
    ((opened faults (setup ++ [Wire.begin]) work wire).2.destination = wire.destination ∧
      ∃ e, (opened faults (setup ++ [Wire.begin]) work wire).1 = .error e) ∨
    ∃ wire' : Wire, wire'.destination = wire.destination ∧ wire'.pending = [] ∧
      opened faults (setup ++ [Wire.begin]) work wire = work wire' := by
  induction setup generalizing wire with
  | nil =>
    rw [List.nil_append]
    unfold opened call
    cases hfault : faults wire.calls with
    | some e => exact .inl ⟨rfl, e, rfl⟩
    | none => exact .inr ⟨{ wire.begin with calls := wire.calls + 1 }, rfl, rfl, rfl⟩
  | cons effect setup ih =>
    rw [List.cons_append, hsetup effect List.mem_cons_self]
    unfold opened call
    cases hfault : faults wire.calls with
    | some e => exact .inl ⟨rfl, e, rfl⟩
    | none =>
      exact ih (fun x hx => hsetup x (List.mem_cons_of_mem effect hx))
        { wire with calls := wire.calls + 1 }

/-- A loop of statements between a `BEGIN` and a `COMMIT`. -/
theorem transaction_cases (setup : List (Wire → Wire))
    (hsetup : ∀ effect ∈ setup, effect = Wire.idle) {written : Written}
    (hw : written = opened faults (setup ++ [Wire.begin]) (fun wire => commitAfter faults
      (sendEach faults Wire.execute encode count items summary wire)) wire) :
    (∀ e, written.1 = .error e → written.2.destination = wire.destination) ∧
      ∀ s, written.1 = .ok s → ∃ rows, items.mapM encode = .ok rows ∧
        written.2.destination = wire.destination ++ rows.flatten := by
  subst hw
  rcases @opened_cases faults setup hsetup (fun wire => commitAfter faults
    (sendEach faults Wire.execute encode count items summary wire)) wire with
    ⟨hdest, e, he⟩ | ⟨wire', hdest, hpending, hopen⟩
  · refine ⟨fun _ _ => hdest, fun s hs => ?_⟩
    rw [he] at hs
    cases hs
  · rw [hopen]
    obtain ⟨hkept, hsent⟩ := @sendEach_execute _ faults encode count items summary wire'
    rcases @commitAfter_cases faults
      (sendEach faults Wire.execute encode count items summary wire') with
      ⟨hc, e, he⟩ | ⟨hc, s, hs, hdone⟩
    · refine ⟨fun _ _ => hc.trans (hkept.trans hdest), fun s hs => ?_⟩
      rw [he] at hs
      cases hs
    · refine ⟨fun e he => ?_, fun s' _ => ?_⟩
      · rw [hdone] at he
        cases he
      · obtain ⟨rows, hrows, hp⟩ := hsent s hs
        refine ⟨rows, hrows, ?_⟩
        rw [hc, hkept, hp, hdest, hpending, List.nil_append]

/-- The items of a loop that are sent by themselves. -/
def Accepts (faults : Faults) (encode : ι → Except FlowError (List Row)) (start : ℕ) (items : List ι) :
    Prop := ∀ i item, items[i]? = some item →
  (∃ rows, encode item = .ok rows) ∧ faults (start + i) = none

theorem accepts_nil {start : ℕ} : Accepts faults encode start [] := by
  intro i item hi
  cases hi

theorem accepts_cons {item : ι} {start : ℕ} : Accepts faults encode start (item :: items) ↔
    ((∃ rows, encode item = .ok rows) ∧ faults start = none) ∧
      Accepts faults encode (start + 1) items := by
  constructor
  · intro h
    refine ⟨h 0 item rfl, fun i x hx => ?_⟩
    have hi := h (i + 1) x hx
    have hnext : start + (i + 1) = start + 1 + i := by omega
    rwa [hnext] at hi
  · rintro ⟨hitem, hrest⟩ i x hx
    cases i with
    | zero =>
      cases hx
      exact hitem
    | succ i =>
      have hi := hrest i x hx
      have hnext : start + (i + 1) = start + 1 + i := by omega
      rwa [hnext]

/-- Without a transaction the loop leaves what it sent before the failure. -/
theorem sendEach_insert :
    (∃ s rows, (sendEach faults Wire.insert encode count items summary wire).1 = .ok s ∧
        items.mapM encode = .ok rows ∧
        (sendEach faults Wire.insert encode count items summary wire).2.destination =
          wire.destination ++ rows.flatten) ∨
    ∃ e accepted refused rest rows,
      (sendEach faults Wire.insert encode count items summary wire).1 = .error e ∧
        items = accepted ++ refused :: rest ∧ Accepts faults encode wire.calls accepted ∧
        ¬ Accepts faults encode (wire.calls + accepted.length) [refused] ∧
        accepted.mapM encode = .ok rows ∧
        (sendEach faults Wire.insert encode count items summary wire).2.destination =
          wire.destination ++ rows.flatten := by
  induction items generalizing summary wire with
  | nil => exact .inl ⟨summary, [], rfl, rfl, (List.append_nil _).symm⟩
  | cons item items ih =>
    unfold sendEach
    cases hitem : encode item with
    | error e =>
      refine .inr ⟨e, [], item, items, [], rfl, rfl, accepts_nil, fun h => ?_, rfl,
        (List.append_nil _).symm⟩
      obtain ⟨rows, hrows⟩ := (accepts_cons.mp h).1.1
      rw [hitem] at hrows
      cases hrows
    | ok rows =>
      unfold call
      cases hfault : faults wire.calls with
      | some e =>
        refine .inr ⟨e, [], item, items, [], rfl, rfl, accepts_nil, fun h => ?_, rfl,
          (List.append_nil _).symm⟩
        have hnone := (accepts_cons.mp h).1.2
        rw [List.length_nil, Nat.add_zero, hfault] at hnone
        cases hnone
      | none =>
        dsimp only
        rcases @ih ⟨summary.rows + (count item).rows, summary.batches + (count item).batches⟩
          { (wire.insert rows) with calls := wire.calls + 1 } with
          ⟨s, more, hs, hmore, hdest⟩ |
          ⟨e, accepted, refused, rest, more, he, hitems, haccepts, hrefused, hmore, hdest⟩
        · refine .inl ⟨s, rows :: more, hs, ?_, ?_⟩
          · rw [List.mapM_cons, hitem, hmore]
            rfl
          · rw [hdest, List.flatten_cons, ← List.append_assoc]
            rfl
        · refine .inr ⟨e, item :: accepted, refused, rest, rows :: more, he, ?_,
            accepts_cons.mpr ⟨⟨⟨rows, hitem⟩, hfault⟩, haccepts⟩, ?_, ?_, ?_⟩
          · rw [hitems, List.cons_append]
          · have hnext : wire.calls + (item :: accepted).length = wire.calls + 1 + accepted.length := by
              rw [List.length_cons]
              omega
            rw [hnext]
            exact hrefused
          · rw [List.mapM_cons, hitem, hmore]
            rfl
          · rw [hdest, List.flatten_cons, ← List.append_assoc]
            rfl

end calls

/-! ### Rows of the batches -/

section rows
variable {ι α β : Type}

/-- The pieces of a list are encoded record by record. -/
theorem mapM_pieces {encode : ι → Except FlowError (List β)} {f : α → Except FlowError β}
    {pieces : ι → List α} (hone : ∀ item rows, encode item = .ok rows →
      (pieces item).mapM f = .ok rows) {items : List ι} {rows : List (List β)}
    (h : items.mapM encode = .ok rows) : (items.flatMap pieces).mapM f = .ok rows.flatten := by
  have hall := mapM_ok_iff.mp h
  clear h
  induction hall with
  | nil => rfl
  | cons hitem _ ih =>
    rw [List.flatMap_cons, List.flatten_cons, List.mapM_append, hone _ _ hitem, ih]
    rfl

theorem flatMap_id' (pieces : List (List α)) : (pieces.flatMap fun piece => piece) = pieces.flatten := by
  rw [List.flatMap, List.map_id']

theorem mapM_ok_self {ε : Type} {xs out : List α}
    (h : xs.mapM (fun x => (.ok x : Except ε α)) = .ok out) : out = xs := by
  have hall := mapM_ok_iff.mp h
  clear h
  induction hall with
  | nil => rfl
  | cons hitem _ ih =>
    cases hitem
    rw [ih]

end rows

namespace Writer

variable {w : Writer} {request : WriteRequest}

theorem conflict_of_statement {n : ℕ} {s : Statement} (h : w.statement request n = .ok s) :
    ∃ conflict, w.conflict request = .ok conflict := by
  cases w with
  | postgres =>
    obtain ⟨_, _, h⟩ := bind_ok h
    obtain ⟨_, _, h⟩ := bind_ok h
    obtain ⟨conflict, hconflict, _⟩ := bind_ok h
    exact ⟨conflict, hconflict⟩
  | mySql | mariaDb =>
    obtain ⟨_, _, h⟩ := bind_ok h
    obtain ⟨_, _, h⟩ := bind_ok h
    obtain ⟨conflict, hconflict, _⟩ := bind_ok h
    exact ⟨conflict, hconflict⟩

theorem rows_of_values {columns : List String}
    (hcolumns : quoteAll request.destinations w.kind.identifierDialect = .ok columns)
    {records : List Json} {values : List (List Bound)}
    (h : records.mapM (w.bindRecord request) = .ok values) :
    records.mapM (w.rowOf request) = .ok (values.map columns.zip) := by
  have hall := mapM_ok_iff.mp h
  clear h
  induction hall with
  | nil => rfl
  | @cons record v _ _ hv _ ih =>
    have hrow : w.rowOf request record = .ok (columns.zip v) := by
      rw [rowOf, hcolumns, hv]
      rfl
    rw [List.mapM_cons, hrow, ih]
    rfl

/-- A statement proposes the rows of its records. -/
theorem encodeBatch_ok (hvalid : Valid request w.kind) {records : List Json} {rows : List Row}
    (h : w.encodeBatch request records = .ok rows) : records.mapM (w.rowOf request) = .ok rows := by
  cases hbatch : w.batch request records with
  | error e =>
    rw [encodeBatch, hbatch] at h
    cases h
  | ok b =>
    rw [encodeBatch, hbatch] at h
    cases h
    obtain ⟨s, hs, hrest⟩ := bind_ok hbatch
    obtain ⟨values, hvalues, _⟩ := bind_ok hrest
    obtain ⟨conflict, hconflict⟩ := conflict_of_statement hs
    obtain ⟨columns, hcolumns⟩ := mapM_ok_of_forall hvalid.destinations
    have hrows := rows_of_values hcolumns hvalues
    obtain ⟨b', hb', hsends⟩ := batch_ok hvalid hconflict hrows
    rw [hbatch] at hb'
    cases hb'
    rw [hrows, ← hsends.proposed]

end Writer

/-! ### Each writer -/

section writers
variable {kind : DatabaseKind} {request : WriteRequest} {records : List Json} {wire : Wire}
  {faults : Faults} {ι : Type} {encode : ι → Except FlowError (List Row)} {count : ι → WriteSummary}
  {items : List ι}

theorem atomic_refused (e : FlowError) : Atomic kind request records wire (.error e, wire) := by
  refine ⟨fun _ _ => rfl, fun summary h => ?_⟩
  cases h

theorem atomic_nothing (summary : WriteSummary) :
    Atomic kind request [] wire (.ok summary, wire) := by
  refine ⟨fun e h => ?_, fun _ _ => ⟨[], rfl, (List.append_nil _).symm⟩⟩
  cases h

theorem atomic_transaction {setup : List (Wire → Wire)}
    (hsetup : ∀ effect ∈ setup, effect = Wire.idle)
    (hrows : ∀ rows, items.mapM encode = .ok rows →
      records.mapM (kind.row request) = .ok rows.flatten) {summary : WriteSummary} :
    Atomic kind request records wire (opened faults (setup ++ [Wire.begin]) (fun wire =>
      commitAfter faults (sendEach faults Wire.execute encode count items summary wire)) wire) := by
  obtain ⟨hfailed, hdone⟩ := @transaction_cases _ faults encode count items summary wire setup
    hsetup _ rfl
  refine ⟨hfailed, fun s hs => ?_⟩
  obtain ⟨rows, hencoded, hdestination⟩ := hdone s hs
  exact ⟨rows.flatten, hrows rows hencoded, hdestination⟩

/-- The calls that come before a `BEGIN`. -/
theorem idle_pair (effect : Wire → Wire) (h : effect ∈ [Wire.idle, Wire.idle]) :
    effect = Wire.idle := by
  rcases List.mem_cons.mp h with rfl | h
  · rfl
  · exact List.mem_singleton.mp h

/-- PostgreSQL, MySQL and MariaDB. -/
theorem Writer.writeCalls_atomic {w : Writer} (hkind : ∀ record, kind.row request record = w.rowOf request record)
    (hvalidate : w.validate request = .ok ()) :
    Atomic kind request records wire (w.writeCalls request faults records wire) := by
  have hvalid := validateWriteRequest_ok hvalidate
  have hsame : kind.row request = w.rowOf request := funext hkind
  rw [writeCalls, hvalidate]
  dsimp only
  split
  next hempty =>
    rw [List.isEmpty_iff.mp hempty]
    exact atomic_nothing ⟨0, 0⟩
  · have hrows : ∀ rows,
        (chunks (w.effectiveBatchSize request) records).mapM (w.encodeBatch request) = .ok rows →
          records.mapM (kind.row request) = .ok rows.flatten := by
      intro rows h
      have hpieces := mapM_pieces (fun _ _ hbatch => encodeBatch_ok hvalid hbatch) h
      rwa [flatMap_id', chunks_flatten (effectiveBatchSize_pos hvalid), ← hsame] at hpieces
    have hopening : ∃ setup, w.opening = setup ++ [Wire.begin] ∧ ∀ effect ∈ setup, effect = Wire.idle := by
      cases w with
      | postgres => exact ⟨[], rfl, fun effect h => (by cases h)⟩
      | mySql | mariaDb => exact ⟨[Wire.idle, Wire.idle], rfl, idle_pair⟩
    obtain ⟨setup, hsetup, hidle⟩ := hopening
    rw [hsetup]
    exact atomic_transaction hidle hrows

theorem OracleWriter.writeCalls_atomic :
    Atomic .oracle request records wire (OracleWriter.writeCalls request faults records wire) := by
  unfold OracleWriter.writeCalls
  split
  · exact atomic_refused _
  · split
    next hempty =>
      rw [List.isEmpty_iff.mp hempty]
      exact atomic_nothing ⟨0, 0⟩
    · split
      · exact atomic_refused _
      · split
        · exact atomic_refused _
        next rows hbound =>
          have hrows : ∀ out, (chunks (max (buildWritePlan .oracle capabilities
              request).effectiveBatchSize 1) rows).mapM (fun chunk => (.ok chunk : Except FlowError _)) =
              .ok out → records.mapM (DatabaseKind.oracle.row request) = .ok out.flatten := by
            intro out hout
            rw [mapM_ok_self hout, chunks_flatten (Nat.lt_of_lt_of_le Nat.one_pos (Nat.le_max_right _ 1))]
            exact hbound
          exact atomic_transaction idle_pair hrows

namespace SqlServerWriter

theorem countRecord_records (batch : List Json) : (countRecord batch).map Prod.fst = batch := by
  refine List.ext_getElem? fun i => ?_
  rw [countRecord, List.getElem?_map, List.getElem?_mapIdx]
  cases batch[i]? with
  | none => rfl
  | some record => rfl

theorem writeCalls_atomic (hvalidate : validateWriteRequest request .sqlServer = .ok ()) :
    Atomic .sqlServer request records wire (writeCalls request faults records wire) := by
  have hvalid := validateWriteRequest_ok hvalidate
  rw [writeCalls, hvalidate]
  dsimp only
  split
  next hempty =>
    rw [List.isEmpty_iff.mp hempty]
    exact atomic_nothing ⟨0, 0⟩
  · split
    · exact atomic_refused _
    · have hone : ∀ (item : Json × WriteSummary) rows,
          ((row request item.1).map fun r => [r]) = .ok rows → [item.1].mapM (row request) = .ok rows := by
        intro item rows h
        cases hrow : row request item.1 with
        | error e =>
          rw [hrow] at h
          cases h
        | ok r =>
          rw [hrow] at h
          cases h
          rw [List.mapM_cons, hrow]
          rfl
      have hrecords : ((chunks request.batchSize records).flatMap countRecord).flatMap
          (fun item => [item.1]) = records := by
        rw [← List.map_eq_flatMap, List.map_flatMap]
        have hbatch : (fun batch => (countRecord batch).map Prod.fst) = fun batch => batch :=
          funext countRecord_records
        rw [hbatch, flatMap_id', chunks_flatten hvalid.batchSize]
      refine atomic_transaction idle_pair fun rows h => ?_
      have hpieces := mapM_pieces hone h
      rwa [hrecords] at hpieces

end SqlServerWriter

/-! ### ClickHouse -/

namespace ClickHouseWriter

/-- What a write leaves without a transaction: a failure keeps the blocks before the one
that was refused. -/
structure Blockwise (request : WriteRequest) (records : List Json) (faults : Faults) (wire : Wire)
    (written : Written) : Prop where
  failed : ∀ e, written.1 = .error e → ∃ accepted refused rest rows,
    chunks (effectiveBatchSize request) records = accepted ++ refused :: rest ∧
      Accepts faults (recordsToJsonEachRow request) wire.calls accepted ∧
      ¬ Accepts faults (recordsToJsonEachRow request) (wire.calls + accepted.length) [refused] ∧
      accepted.flatten.mapM (row request) = .ok rows ∧
      written.2.destination = wire.destination ++ rows
  done : ∀ summary, written.1 = .ok summary → ∃ rows, records.mapM (row request) = .ok rows ∧
    written.2.destination = wire.destination ++ rows

theorem insertSql_ok (hvalid : Valid request .clickHouse) : ∃ sql, insertSql request = .ok sql := by
  obtain ⟨table, htable⟩ := hvalid.table
  obtain ⟨columns, hcolumns⟩ := mapM_ok_of_forall hvalid.destinations
  have htable : quoteQualifiedIdentifier request.table .backtick = .ok table := htable
  have hcolumns : quoteAll request.destinations .backtick = .ok columns := hcolumns
  rw [insertSql, htable, hcolumns]
  exact ⟨_, rfl⟩

theorem effectiveBatchSize_pos : 0 < effectiveBatchSize request := by
  rw [effectiveBatchSize]
  omega

theorem writeCalls_eq (hvalidate : validate request = .ok ()) :
    writeCalls request faults records wire =
      sendEach faults Wire.insert (recordsToJsonEachRow request) oneBatch
        (chunks (effectiveBatchSize request) records) ⟨0, 0⟩ wire := by
  have hvalid : Valid request .clickHouse := by
    rw [validate] at hvalidate
    split at hvalidate
    · cases hvalidate
    · exact validateWriteRequest_ok hvalidate
  obtain ⟨sql, hsql⟩ := insertSql_ok hvalid
  rw [writeCalls, hvalidate, hsql]
  dsimp only
  split
  next hempty =>
    rw [List.isEmpty_iff.mp hempty]
    rfl
  · rfl

theorem writeCalls_blockwise (hvalidate : validate request = .ok ()) :
    Blockwise request records faults wire (writeCalls request faults records wire) := by
  have hpositive : 0 < effectiveBatchSize request := effectiveBatchSize_pos
  have hrecords : ∀ {batches : List (List Json)} {rows : List (List Row)},
      batches.mapM (recordsToJsonEachRow request) = .ok rows →
        batches.flatten.mapM (row request) = .ok rows.flatten := by
    intro batches rows h
    have hpieces := mapM_pieces (fun _ _ hbatch => hbatch) h
    rwa [flatMap_id'] at hpieces
  rw [writeCalls_eq hvalidate]
  rcases sendEach_insert with ⟨s, rows, hs, hrows, hdestination⟩ |
    ⟨e, accepted, refused, rest, rows, he, hbatches, haccepts, hrefused, hrows, hdestination⟩
  · refine ⟨fun e he => ?_, fun _ _ => ⟨rows.flatten, ?_, hdestination⟩⟩
    · rw [hs] at he
      cases he
    · have hall := hrecords hrows
      rwa [chunks_flatten hpositive] at hall
  · refine ⟨fun _ _ => ⟨accepted, refused, rest, rows.flatten, hbatches, haccepts, hrefused,
      hrecords hrows, hdestination⟩, fun s hs => ?_⟩
    rw [he] at hs
    cases hs

end ClickHouseWriter

end writers

/-- Every writer with transactions is atomic wherever a call fails; ClickHouse keeps the
blocks that it inserted before. -/
theorem write_atomic (kind : DatabaseKind) (request : WriteRequest) (records : List Json)
    (faults : Faults) (wire : Wire) (hvalidate : kind.validate request = .ok ()) :
    (kind ≠ .clickHouse →
        Atomic kind request records wire (kind.write request faults records wire)) ∧
      (kind = .clickHouse → ClickHouseWriter.Blockwise request records faults wire
        (kind.write request faults records wire)) := by
  cases kind with
  | clickHouse =>
    exact ⟨fun h => absurd rfl h, fun _ => ClickHouseWriter.writeCalls_blockwise hvalidate⟩
  | postgreSql =>
    refine ⟨fun _ => ?_, fun h => (by cases h)⟩
    exact @Writer.writeCalls_atomic .postgreSql request records wire faults .postgres
      (fun _ => rfl) hvalidate
  | mySql =>
    refine ⟨fun _ => ?_, fun h => (by cases h)⟩
    exact @Writer.writeCalls_atomic .mySql request records wire faults .mySql (fun _ => rfl) hvalidate
  | mariaDb =>
    refine ⟨fun _ => ?_, fun h => (by cases h)⟩
    exact @Writer.writeCalls_atomic .mariaDb request records wire faults .mariaDb
      (fun _ => rfl) hvalidate
  | oracle => exact ⟨fun _ => OracleWriter.writeCalls_atomic, fun h => (by cases h)⟩
  | sqlServer =>
    exact ⟨fun _ => SqlServerWriter.writeCalls_atomic hvalidate, fun h => (by cases h)⟩

/-- A request of one column. -/
def sampleInsert (batchSize : ℕ) : WriteRequest where
  table := "events"
  mode := .insert
  columns := .insert .empty "id" "id"
  conflictColumns := []
  batchSize := batchSize

/-- The second record has no `id`. -/
def sampleEvents : List Json := [.object [("id", .number (.posInt 1))], .object []]

/-- Through SQL Server neither record stays; through ClickHouse the first block does. -/
theorem write_atomic_refused :
    Atomic .sqlServer (sampleInsert 1) sampleEvents ⟨[], [], 0⟩
        (DatabaseKind.sqlServer.write (sampleInsert 1) (fun _ => none) sampleEvents ⟨[], [], 0⟩) ∧
      ClickHouseWriter.Blockwise (sampleInsert 1) sampleEvents (fun _ => none) ⟨[], [], 0⟩
        (DatabaseKind.clickHouse.write (sampleInsert 1) (fun _ => none) sampleEvents ⟨[], [], 0⟩) :=
  ⟨(write_atomic .sqlServer (sampleInsert 1) sampleEvents (fun _ => none) ⟨[], [], 0⟩
      (by decide +kernel)).1 (by decide),
    (write_atomic .clickHouse (sampleInsert 1) sampleEvents (fun _ => none) ⟨[], [], 0⟩
      (by decide +kernel)).2 rfl⟩

/-- In batches of one the first record stays. -/
theorem write_not_atomic :
    ¬ ∀ (kind : DatabaseKind) (request : WriteRequest) (records : List Json) (faults : Faults)
      (wire : Wire), kind.validate request = .ok () →
        Atomic kind request records wire (kind.write request faults records wire) := by
  intro hclaim
  have hatomic := hclaim .clickHouse (sampleInsert 1) sampleEvents (fun _ => none) ⟨[], [], 0⟩
    (by decide +kernel)
  have hfailed : (DatabaseKind.clickHouse.write (sampleInsert 1) (fun _ => none) sampleEvents
      ⟨[], [], 0⟩).1.isOk = false := by
    decide +kernel
  have hleft : (DatabaseKind.clickHouse.write (sampleInsert 1) (fun _ => none) sampleEvents
      ⟨[], [], 0⟩).2.destination.length = 1 := by
    decide +kernel
  cases hresult : (DatabaseKind.clickHouse.write (sampleInsert 1) (fun _ => none) sampleEvents
      ⟨[], [], 0⟩).1 with
  | ok summary =>
    rw [hresult] at hfailed
    cases hfailed
  | error e =>
    rw [hatomic.failed e hresult] at hleft
    cases hleft

end Jaiba.Connectors
