import Jaiba.Connectors.Writer

/-!
# Batched upsert

What the statements of a write propose, and when sending them is upserting the
records one by one.
-/

namespace Jaiba.Connectors
open Jaiba.Lib

/-! ### Parameters and the rows they stand in -/

theorem parameterRows_flatten (columns parameter rows : ℕ) :
    (parameterRows columns parameter rows).flatten = List.range' parameter (rows * columns) := by
  induction rows generalizing parameter with
  | zero => rw [Nat.zero_mul, parameterRows, List.flatten_nil, List.range'_zero]
  | succ rows ih =>
    rw [parameterRows, List.flatten_cons, ih, List.range'_append_1, Nat.succ_mul, Nat.add_comm]

/-- A row takes its parameters where the rows before it end. -/
theorem range'_parameters (before values after : List Bound) :
    (List.range' (before.length + 1) values.length).map
      (fun number => (before ++ (values ++ after)).getD (number - 1) .null) = values := by
  refine List.ext_getElem (by rw [List.length_map, List.length_range']) fun i hi hv => ?_
  rw [List.getElem_map, List.getElem_range', List.getD_eq_getElem?_getD]
  have hindex : before.length + 1 + 1 * i - 1 = before.length + i := by omega
  rw [hindex, List.getElem?_append_right (Nat.le_add_right _ _), Nat.add_sub_cancel_left,
    List.getElem?_append_left hv, List.getElem?_eq_getElem hv, Option.getD_some]

theorem parameterRows_values {columns : ℕ} (before : List Bound) {values : List (List Bound)}
    (hlength : ∀ v ∈ values, v.length = columns) :
    (parameterRows columns (before.length + 1) values.length).map
      (fun numbers => numbers.map fun number => (before ++ values.flatten).getD (number - 1) .null) = values := by
  induction values generalizing before with
  | nil => rfl
  | cons v values ih =>
    rw [List.forall_mem_cons] at hlength
    have hnext := ih (before ++ v) hlength.2
    rw [List.length_append, hlength.1, List.append_assoc] at hnext
    rw [List.length_cons, parameterRows, List.map_cons, List.flatten_cons, ← hlength.1, range'_parameters,
      hlength.1, show before.length + 1 + columns = before.length + columns + 1 by omega, hnext]

theorem proposed_eq {table : String} {columns : List String} {conflict : Conflict} {values : List (List Bound)}
    (hlength : ∀ v ∈ values, v.length = columns.length) :
    Statement.proposed ⟨table, columns, parameterRows columns.length 1 values.length, conflict⟩ values.flatten =
      values.map columns.zip := by
  have hrows := parameterRows_values [] hlength
  rw [List.length_nil, Nat.zero_add, List.nil_append] at hrows
  rw [Statement.proposed]
  dsimp only
  conv_rhs => rw [← hrows, List.map_map]
  rfl

/-! ### What a writer sends -/

namespace Writer

/-- A record as a row of its own columns. -/
def rowOf (w : Writer) (request : WriteRequest) (record : Json) : Except FlowError Row := do
  let columns ← quoteAll request.destinations w.kind.identifierDialect
  let values ← w.bindRecord request record
  .ok (columns.zip values)

variable {w : Writer} {request : WriteRequest}

theorem statement_ok (hvalid : Valid request w.kind) {conflict : Conflict}
    (hconflict : w.conflict request = .ok conflict) :
    ∃ table columns, quoteAll request.destinations w.kind.identifierDialect = .ok columns ∧
      columns.length = request.columns.entries.length ∧
      ∀ rows, w.statement request rows =
        .ok ⟨table, columns, parameterRows columns.length 1 rows, conflict⟩ := by
  obtain ⟨table, htable⟩ := hvalid.table
  obtain ⟨columns, hcolumns⟩ := mapM_ok_of_forall hvalid.destinations
  have hlength : columns.length = request.columns.entries.length := by
    rw [length_of_mapM_ok hcolumns, WriteRequest.destinations, List.length_map]
  refine ⟨table, columns, hcolumns, hlength, fun rows => ?_⟩
  cases w with
  | postgres =>
    have hconflict : PostgresWriter.conflict request = .ok conflict := hconflict
    have hcolumns : quoteAll request.destinations .doubleQuote = .ok columns := hcolumns
    have htable : quoteQualifiedIdentifier request.table .doubleQuote = .ok table := htable
    rw [statement, PostgresWriter.statement, htable, hcolumns, hconflict]
    rfl
  | mySql =>
    have hconflict : MySqlWriter.conflict request = .ok conflict := hconflict
    have hcolumns : quoteAll request.destinations .backtick = .ok columns := hcolumns
    have htable : quoteQualifiedIdentifier request.table .backtick = .ok table := htable
    rw [statement, MySqlWriter.statement, htable, hcolumns, hconflict]
    rfl
  | mariaDb =>
    have hconflict : MySqlWriter.conflict request = .ok conflict := hconflict
    have hcolumns : quoteAll request.destinations .backtick = .ok columns := hcolumns
    have htable : quoteQualifiedIdentifier request.table .backtick = .ok table := htable
    rw [statement, MySqlWriter.statement, htable, hcolumns, hconflict]
    rfl

theorem bindRecord_length {record : Json} {values : List Bound} (h : w.bindRecord request record = .ok values) :
    values.length = request.columns.entries.length := by
  cases record with
  | object fields =>
    have hlength := length_of_mapM_ok h
    rwa [OrderedDict.keys, List.length_map] at hlength
  | _ => cases h

theorem rowOf_ok {record : Json} {row : Row} (h : w.rowOf request record = .ok row) {columns : List String}
    (hcolumns : quoteAll request.destinations w.kind.identifierDialect = .ok columns) :
    ∃ values, w.bindRecord request record = .ok values ∧ row = columns.zip values := by
  obtain ⟨columns', hcolumns', h⟩ := bind_ok h
  obtain ⟨values, hvalues, h⟩ := bind_ok h
  rw [hcolumns] at hcolumns'
  cases hcolumns'
  cases h
  exact ⟨values, hvalues, rfl⟩

/-- The values of the records behind their rows. -/
theorem values_of_rows {records : List Json} {rows : List Row} (h : records.mapM (w.rowOf request) = .ok rows)
    {columns : List String}
    (hcolumns : quoteAll request.destinations w.kind.identifierDialect = .ok columns) :
    ∃ values, records.mapM (w.bindRecord request) = .ok values ∧ rows = values.map columns.zip := by
  have hall := mapM_ok_iff.mp h
  clear h
  induction hall with
  | nil => exact ⟨[], rfl, rfl⟩
  | cons hrow _ ih =>
    obtain ⟨v, hv, rfl⟩ := rowOf_ok hrow hcolumns
    obtain ⟨values, hvalues, rfl⟩ := ih
    refine ⟨v :: values, ?_, rfl⟩
    rw [List.mapM_cons, hv, hvalues]
    rfl

/-- What is sent for one batch: the rows of its records, with each parameter in one place. -/
structure Sends (request : WriteRequest) (conflict : Conflict) (rows : List Row) (b : Batch) : Prop where
  conflict : b.statement.conflict = conflict
  proposed : b.statement.proposed b.parameters = rows
  numbers : b.statement.rows.flatten = List.range' 1 b.parameters.length
  length : b.parameters.length = rows.length * request.columns.entries.length

theorem batch_ok (hvalid : Valid request w.kind) {conflict : Conflict}
    (hconflict : w.conflict request = .ok conflict) {records : List Json} {rows : List Row}
    (h : records.mapM (w.rowOf request) = .ok rows) :
    ∃ b, w.batch request records = .ok b ∧ Sends request conflict rows b := by
  obtain ⟨table, columns, hcolumns, hwidth, hstatement⟩ := statement_ok hvalid hconflict
  obtain ⟨values, hvalues, rfl⟩ := values_of_rows h hcolumns
  have hlength : ∀ v ∈ values, v.length = columns.length := by
    intro v hv
    obtain ⟨record, -, hrecord⟩ := exists_of_mapM_ok hvalues hv
    rw [bindRecord_length hrecord, hwidth]
  have hcount : values.length = records.length := length_of_mapM_ok hvalues
  have htotal : values.flatten.length = values.length * columns.length := by
    rw [List.length_flatten, List.map_congr_left hlength, List.map_const', List.sum_replicate_nat]
  refine ⟨⟨⟨table, columns, parameterRows columns.length 1 records.length, conflict⟩, values.flatten⟩, ?_, rfl,
    ?_, ?_, ?_⟩
  · rw [batch, hstatement, hvalues]
    rfl
  · rw [← hcount]
    exact proposed_eq hlength
  · rw [parameterRows_flatten, htotal, hcount]
  · rw [htotal, List.length_map, hwidth]

end Writer

/-! ### Batches and single records -/

variable {τ κ : Type} [DecidableEq κ] {target : Target τ κ}

/-- A statement that refuses two rows with one key does not propose two. -/
def Separate (target : Target τ κ) (conflict : Conflict) (rows : List Row) : Prop :=
  ∀ conflicts updates, conflict = .doUpdate conflicts updates → (rows.filterMap target.key).Nodup

theorem execute_separate {s : Statement} {parameters : List Bound}
    (h : Separate target s.conflict (s.proposed parameters)) (t : τ) :
    target.execute s parameters t = (s.proposed parameters).foldlM (target.propose s.conflict) t := by
  obtain ⟨table, columns, rows, conflict⟩ := s
  cases conflict with
  | doUpdate conflicts updates =>
    rw [Target.execute]
    dsimp only
    rw [if_pos (h conflicts updates rfl)]
  | _ => rfl

theorem execute_apart {s : Statement} {parameters : List Bound}
    (h : ¬ Separate target s.conflict (s.proposed parameters)) (t : τ) :
    ∃ e, target.execute s parameters t = .error e := by
  obtain ⟨table, columns, rows, conflict⟩ := s
  cases conflict with
  | doUpdate conflicts updates =>
    rw [Target.execute]
    dsimp only
    rw [if_neg]
    · exact ⟨_, rfl⟩
    · intro hnodup
      refine h fun conflicts' updates' heq => ?_
      exact hnodup
  | _ =>
    refine absurd (fun conflicts updates heq => ?_) h
    cases heq

namespace Writer

variable {w : Writer} {request : WriteRequest}

/-- The loop of `write` succeeds when no statement refuses its rows and each row is taken. -/
theorem writeBatches_ok_iff (hvalid : Valid request w.kind) {conflict : Conflict}
    (hconflict : w.conflict request = .ok conflict) {pieces : List (List Json)} {rowPieces : List (List Row)}
    (h : List.Forall₂ (fun records rows => records.mapM (w.rowOf request) = .ok rows) pieces rowPieces)
    (summary : WriteSummary) (t t' : τ) :
    (∃ summary', w.writeBatches target request pieces summary t = .ok (summary', t')) ↔
      (∀ rows ∈ rowPieces, Separate target conflict rows) ∧
        rowPieces.flatten.foldlM (target.propose conflict) t = .ok t' := by
  induction h generalizing summary t with
  | nil =>
    refine ⟨?_, ?_⟩
    · rintro ⟨summary', h⟩
      cases h
      refine ⟨fun rows hmem => ?_, rfl⟩
      cases hmem
    · rintro ⟨-, h⟩
      cases h
      exact ⟨summary, rfl⟩
  | @cons records rows pieces rowPieces hrows _ ih =>
    obtain ⟨b, hbatch, hsends⟩ := batch_ok hvalid hconflict hrows
    rw [writeBatches, hbatch, List.flatten_cons, List.foldlM_append, List.forall_mem_cons]
    have hbind : ∀ f : Batch → Except FlowError (WriteSummary × τ), (Except.ok b >>= f) = f b := fun _ => rfl
    rw [hbind]
    by_cases hseparate : Separate target conflict rows
    · have hsame : Separate target b.statement.conflict (b.statement.proposed b.parameters) := by
        rw [hsends.conflict, hsends.proposed]
        exact hseparate
      rw [execute_separate hsame, hsends.conflict, hsends.proposed]
      cases rows.foldlM (target.propose conflict) t with
      | error e =>
        refine ⟨?_, ?_⟩
        · rintro ⟨summary', h⟩
          cases h
        · rintro ⟨-, h⟩
          cases h
      | ok u =>
        have hrest := ih ⟨summary.rows + records.length, summary.batches + 1⟩ u
        exact hrest.trans ⟨fun h => ⟨⟨hseparate, h.1⟩, h.2⟩, fun h => ⟨h.1.2, h.2⟩⟩
    · have hsame : ¬ Separate target b.statement.conflict (b.statement.proposed b.parameters) := by
        rw [hsends.conflict, hsends.proposed]
        exact hseparate
      obtain ⟨e, hexecute⟩ := execute_apart hsame t
      rw [hexecute]
      refine ⟨?_, fun h => absurd h.1.1 hseparate⟩
      rintro ⟨summary', h⟩
      cases h

theorem effectiveBatchSize_eq (w : Writer) (request : WriteRequest) :
    w.effectiveBatchSize request =
      min request.batchSize (max (65535 / max request.columns.entries.length 1) 1) := by
  cases w <;> rfl

theorem effectiveBatchSize_pos (hvalid : Valid request w.kind) : 0 < w.effectiveBatchSize request := by
  rw [effectiveBatchSize_eq]
  have hbatch := hvalid.batchSize
  omega

/-- The batches of a list of records, as rows. -/
theorem pieces_rows {records : List Json} {rows : List Row} (h : records.mapM (w.rowOf request) = .ok rows) (n : ℕ) :
    List.Forall₂ (fun records rows => records.mapM (w.rowOf request) = .ok rows) (chunks n records)
      (chunks n rows) :=
  (chunks_forall₂ (mapM_ok_iff.mp h)).imp fun _ _ hpiece => mapM_ok_iff.mpr hpiece

end Writer

/-- Upserting the records one by one, in their order. -/
def upsertEach (target : Target τ κ) (conflict : Conflict) (rows : List Row) (t : τ) : Except FlowError τ :=
  rows.foldlM (target.propose conflict) t

namespace Writer

variable {w : Writer} {request : WriteRequest} {records : List Json} {rows : List Row} {conflict : Conflict}

theorem write_ok_iff (hvalidate : w.validate request = .ok ()) (hconflict : w.conflict request = .ok conflict)
    (hrows : records.mapM (w.rowOf request) = .ok rows) (t t' : τ) :
    (∃ summary, w.write target request records t = (.ok summary, t')) ↔
      (∀ chunk ∈ chunks (w.effectiveBatchSize request) rows, Separate target conflict chunk) ∧
        upsertEach target conflict rows t = .ok t' := by
  have hvalid := validateWriteRequest_ok hvalidate
  rw [write, hvalidate]
  dsimp only
  by_cases hempty : records = []
  · subst hempty
    cases hrows
    refine ⟨?_, ?_⟩
    · rintro ⟨summary, h⟩
      cases h
      refine ⟨fun chunk hmem => ?_, rfl⟩
      cases hmem
    · rintro ⟨-, h⟩
      cases h
      exact ⟨_, rfl⟩
  · have hloop := @writeBatches_ok_iff _ _ _ target _ _ hvalid _ hconflict _ _
      (pieces_rows hrows (w.effectiveBatchSize request)) ⟨0, 0⟩ t t'
    rw [chunks_flatten (effectiveBatchSize_pos hvalid)] at hloop
    rw [if_neg fun h => hempty (List.isEmpty_iff.mp h), upsertEach, ← hloop]
    cases w.writeBatches target request (chunks (w.effectiveBatchSize request) records) ⟨0, 0⟩ t with
    | error e =>
      refine ⟨?_, ?_⟩
      · rintro ⟨summary, h⟩
        cases h
      · rintro ⟨summary, h⟩
        cases h
    | ok result =>
      refine ⟨?_, ?_⟩
      · rintro ⟨summary, h⟩
        cases h
        exact ⟨_, rfl⟩
      · rintro ⟨summary, h⟩
        cases h
        exact ⟨_, rfl⟩

/-- A write that fails is rolled back. -/
theorem write_error {t t' : τ} {e : FlowError} (h : w.write target request records t = (.error e, t')) : t' = t := by
  rw [write] at h
  split at h
  · cases h
    rfl
  · split at h
    · cases h
    · split at h
      · cases h
        rfl
      · cases h

theorem chunk_parameters {n columns : ℕ} (hcolumns : 0 < columns) (hlimit : columns ≤ 65535)
    (hn : n ≤ max (65535 / max columns 1) 1) : n * columns ≤ 65535 := by
  have hmax : max columns 1 = columns := by omega
  have hone : 1 ≤ 65535 / columns := (Nat.le_div_iff_mul_le hcolumns).mpr (by omega)
  rw [hmax, Nat.max_eq_left hone] at hn
  exact (Nat.mul_le_mul_right columns hn).trans (Nat.div_mul_le_self 65535 columns)

/-- The batches that are sent. -/
theorem batches_ok (hvalid : Valid request w.kind) (hconflict : w.conflict request = .ok conflict)
    (hrows : records.mapM (w.rowOf request) = .ok rows) :
    ∃ batches, (chunks (w.effectiveBatchSize request) records).mapM (w.batch request) = .ok batches ∧
      List.Forall₂ (Sends request conflict) (chunks (w.effectiveBatchSize request) rows) batches := by
  have hpieces := pieces_rows hrows (w.effectiveBatchSize request)
  generalize chunks (w.effectiveBatchSize request) records = pieces at hpieces ⊢
  generalize chunks (w.effectiveBatchSize request) rows = rowPieces at hpieces ⊢
  induction hpieces with
  | nil => exact ⟨[], rfl, .nil⟩
  | cons hpiece _ ih =>
    obtain ⟨b, hbatch, hsends⟩ := batch_ok hvalid hconflict hpiece
    obtain ⟨batches, hbatches, hall⟩ := ih
    refine ⟨b :: batches, ?_, .cons hsends hall⟩
    rw [List.mapM_cons, hbatch, hbatches]
    rfl

theorem proposed_flatten {pieces : List (List Row)} {batches : List Batch}
    (h : List.Forall₂ (Sends request conflict) pieces batches) :
    batches.flatMap (fun b => b.statement.proposed b.parameters) = pieces.flatten := by
  induction h with
  | nil => rfl
  | cons hsends _ ih => rw [List.flatMap_cons, ih, hsends.proposed, List.flatten_cons]

theorem sends_of_mem {pieces : List (List Row)} {batches : List Batch}
    (h : List.Forall₂ (Sends request conflict) pieces batches) {b : Batch} (hb : b ∈ batches) :
    ∃ piece ∈ pieces, Sends request conflict piece b := by
  induction h with
  | nil => cases hb
  | cons hsends _ ih =>
    rcases List.mem_cons.mp hb with rfl | hb
    · exact ⟨_, List.mem_cons_self, hsends⟩
    · obtain ⟨piece, hpiece, hpb⟩ := ih hb
      exact ⟨piece, List.mem_cons_of_mem _ hpiece, hpb⟩

end Writer

/-- What the write of a list of records should be: their rows, upserted one by one or not
at all; each record in one place of one statement, whose parameters the protocol can carry;
and batches of the size that was announced. -/
structure BatchedAsSingle (w : Writer) (target : Target τ κ) (request : WriteRequest) (conflict : Conflict)
    (records : List Json) (rows : List Row) (t : τ) : Prop where
  table : (w.write target request records t).2 =
    match upsertEach target conflict rows t with
    | .ok t' => t'
    | .error _ => t
  accepted : (w.write target request records t).1.isOk = (upsertEach target conflict rows t).isOk
  bound : ∃ batches, (chunks (w.effectiveBatchSize request) records).mapM (w.batch request) = .ok batches ∧
    batches.flatMap (fun b => b.statement.proposed b.parameters) = rows ∧
    ∀ b ∈ batches, b.statement.rows.flatten = List.range' 1 b.parameters.length ∧ b.parameters.length ≤ 65535
  plan : ∃ plan, w.plan request = .ok plan ∧ plan.effectiveBatchSize = w.effectiveBatchSize request

/-- There are at most as many columns as a statement has parameters; and no batch has two
rows with one key, unless one of the rows would be refused on its own. -/
structure Batchable (w : Writer) (target : Target τ κ) (request : WriteRequest) (conflict : Conflict)
    (rows : List Row) (t : τ) : Prop where
  columns : rows = [] ∨ request.columns.entries.length ≤ 65535
  separate : (∀ chunk ∈ chunks (w.effectiveBatchSize request) rows, Separate target conflict chunk) ∨
    ∃ e, upsertEach target conflict rows t = .error e

/-- An upsert in batches is the upsert of its records one by one exactly when no statement
of PostgreSQL has two rows with one key and no row has more columns than there are parameters. -/
theorem batched_upsert_iff (target : Target τ κ) (w : Writer) (request : WriteRequest) (conflict : Conflict)
    (records : List Json) (rows : List Row) (t : τ) (hvalidate : w.validate request = .ok ())
    (hconflict : w.conflict request = .ok conflict) (hrows : records.mapM (w.rowOf request) = .ok rows) :
    BatchedAsSingle w target request conflict records rows t ↔ Batchable w target request conflict rows t := by
  have hvalid := validateWriteRequest_ok hvalidate
  obtain ⟨batches, hbatches, hsends⟩ := Writer.batches_ok hvalid hconflict hrows
  have hpositive := Writer.effectiveBatchSize_pos hvalid
  have hwrite : ∀ t', (∃ summary, w.write target request records t = (.ok summary, t')) ↔
      (∀ chunk ∈ chunks (w.effectiveBatchSize request) rows, Separate target conflict chunk) ∧
        upsertEach target conflict rows t = .ok t' :=
    Writer.write_ok_iff hvalidate hconflict hrows t
  constructor
  · rintro ⟨htable, haccepted, ⟨batches', hbatches', -, hlimit⟩, -⟩
    refine ⟨?_, ?_⟩
    · by_cases hempty : rows = []
      · exact .inl hempty
      · obtain ⟨chunk, rest, hchunks, hne⟩ := chunks_head hpositive hempty
        rw [hbatches] at hbatches'
        cases hbatches'
        rw [hchunks] at hsends
        obtain ⟨b, batches, hb, -, rfl⟩ := List.forall₂_cons_left_iff.mp hsends
        have hlength := (hlimit b List.mem_cons_self).2
        rw [hb.length] at hlength
        have hchunk : 0 < chunk.length := List.length_pos_iff.mpr hne
        exact .inr ((Nat.le_mul_of_pos_left _ hchunk).trans hlength)
    · cases heach : upsertEach target conflict rows t with
      | error e => exact .inr ⟨e, rfl⟩
      | ok t' =>
        cases hresult : w.write target request records t with
        | mk result t'' =>
          rw [hresult, heach] at haccepted
          cases result with
          | error e => cases haccepted
          | ok summary => exact .inl ((hwrite t'').mp ⟨summary, hresult⟩).1
  · rintro ⟨hcolumns, hseparate⟩
    have hsame : (w.write target request records t).2 =
        (match upsertEach target conflict rows t with
          | .ok t' => t'
          | .error _ => t) ∧
        (w.write target request records t).1.isOk = (upsertEach target conflict rows t).isOk := by
      cases hresult : w.write target request records t with
      | mk result t'' =>
        cases result with
        | ok summary =>
          rw [((hwrite t'').mp ⟨summary, hresult⟩).2]
          exact ⟨rfl, rfl⟩
        | error e =>
          cases heach : upsertEach target conflict rows t with
          | error e' => exact ⟨Writer.write_error hresult, rfl⟩
          | ok t' =>
            rcases hseparate with hseparate | ⟨e', he'⟩
            · obtain ⟨summary, hok⟩ := (hwrite t').mpr ⟨hseparate, heach⟩
              rw [hresult] at hok
              cases hok
            · rw [heach] at he'
              cases he'
    refine ⟨hsame.1, hsame.2, ⟨batches, hbatches, ?_, fun b hb => ?_⟩, ?_⟩
    · rw [Writer.proposed_flatten hsends, chunks_flatten hpositive]
    · obtain ⟨chunk, hchunk, hb⟩ := Writer.sends_of_mem hsends hb
      refine ⟨hb.numbers, ?_⟩
      have hcount : chunk.length ≤ w.effectiveBatchSize request := length_of_mem_chunks hchunk
      have hnonempty : rows ≠ [] := by
        rintro rfl
        cases hchunk
      have hparameters := Writer.chunk_parameters hvalid.columns (hcolumns.resolve_left hnonempty)
        ((Writer.effectiveBatchSize_eq w request).le.trans (Nat.min_le_right _ _))
      rw [hb.length]
      exact (Nat.mul_le_mul_right _ hcount).trans hparameters
    · refine ⟨buildWritePlan w.kind w.capabilities request, ?_, ?_⟩
      · rw [Writer.plan, hvalidate]
        rfl
      · rw [Writer.effectiveBatchSize_eq]
        cases w <;> rfl

/-! ### One table -/

def sampleRequest (batchSize : ℕ) : WriteRequest where
  table := "public.customers"
  mode := .upsert
  columns := .insert (.insert .empty "id" "id") "name" "name"
  conflictColumns := ["id"]
  batchSize := batchSize

def sampleKey (row : Row) : Option ℤ :=
  match row.lookup "\"id\"" with
  | some (.int n) => some n
  | _ => none

/-- A table with a unique index on `id`. -/
def sampleTarget : Target (List Row) ℤ where
  key := sampleKey
  propose conflict stored row :=
    let taken (old : Row) : Bool := (sampleKey old).isSome && sampleKey old = sampleKey row
    if stored.any taken then
      match conflict with
      | .doUpdate _ updates => .ok (stored.map fun old =>
          if taken old then
            old.map fun cell => if cell.1 ∈ updates then (cell.1, (row.lookup cell.1).getD cell.2) else cell
          else old)
      | .doNothing _ => .ok stored
      | _ => .error (.database "duplicate key value violates unique constraint")
    else .ok (stored ++ [row])

def sampleRecord (name : String) : Json := .object [("id", .number (.posInt 1)), ("name", .string name)]

/-- Two records of one customer. -/
def sampleRecords : List Json := [sampleRecord "Ana", sampleRecord "Ana María"]

def sampleRows (batchSize : ℕ) : List Row :=
  ((sampleRecords.mapM (Writer.postgres.rowOf (sampleRequest batchSize))).toOption).getD []

def sampleConflict (batchSize : ℕ) : Conflict :=
  (Writer.postgres.conflict (sampleRequest batchSize)).toOption.getD .unspecified

theorem eq_ok_getD {ε α : Type} {x : Except ε α} (h : x.isOk = true) (a : α) : x = .ok (x.toOption.getD a) := by
  obtain ⟨b, rfl⟩ := ok_of_isOk h
  rfl

example : (Writer.postgres.statement (sampleRequest 1000) 2).map (Statement.text · .postgres) =
    .ok ("INSERT INTO \"public\".\"customers\" (\"id\", \"name\") VALUES ($1, $2), ($3, $4) " ++
      "ON CONFLICT (\"id\") DO UPDATE SET \"name\" = EXCLUDED.\"name\"") := by
  decide +kernel

/-- One record to a statement. -/
theorem batched_upsert_iff_single :
    BatchedAsSingle .postgres sampleTarget (sampleRequest 1) (sampleConflict 1) sampleRecords (sampleRows 1) [] := by
  refine (batched_upsert_iff sampleTarget .postgres (sampleRequest 1) (sampleConflict 1) sampleRecords (sampleRows 1)
    [] ?_ (eq_ok_getD ?_ _) (eq_ok_getD ?_ _)).mpr ⟨.inr (by decide), .inl ?_⟩
  · decide +kernel
  · decide +kernel
  · decide +kernel
  · have hall : (chunks (Writer.postgres.effectiveBatchSize (sampleRequest 1)) (sampleRows 1)).all (fun chunk =>
        decide (chunk.filterMap sampleTarget.key).Nodup) = true := by
      decide +kernel
    intro chunk hchunk _ _ _
    exact of_decide_eq_true (List.all_eq_true.mp hall chunk hchunk)

/-- Two records with one key in one statement are refused. -/
theorem duplicate_key_refused :
    ¬ ∀ (target : Target (List Row) ℤ) (w : Writer) (request : WriteRequest) (conflict : Conflict)
      (records : List Json) (rows : List Row) (t : List Row), w.validate request = .ok () →
        w.conflict request = .ok conflict → records.mapM (w.rowOf request) = .ok rows →
          BatchedAsSingle w target request conflict records rows t := by
  intro hclaim
  have hsame := (hclaim sampleTarget .postgres (sampleRequest 1000) (sampleConflict 1000) sampleRecords
    (sampleRows 1000) [] (by decide +kernel) (eq_ok_getD (by decide +kernel) _)
    (eq_ok_getD (by decide +kernel) _)).accepted
  have hbatched : (Writer.postgres.write sampleTarget (sampleRequest 1000) sampleRecords []).1.isOk = false := by
    decide +kernel
  have hsingle : (upsertEach sampleTarget (sampleConflict 1000) (sampleRows 1000) []).isOk = true := by
    decide +kernel
  rw [hbatched, hsingle] at hsame
  cases hsame

end Jaiba.Connectors
