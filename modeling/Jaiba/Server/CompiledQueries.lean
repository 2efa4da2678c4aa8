import Mathlib.Data.List.DropRight
import Jaiba.Processors.SqlQueries

/-!
# Compiled queries in a flow

A compiled query becomes the configuration of the processor of its dialect.
The processor refuses it exactly when a filter compares with an integer that no
signed 64-bit column holds.
-/

namespace Jaiba.Server.SqlBuilder
open Jaiba.Lib Jaiba.Processors

/-- The options beside the query. -/
structure Options where
  connection : String
  batchSize : ℕ
  callTimeoutMs : ℕ

/-- `from_config` of the processor that runs the dialect accepts the statement and its parameters. -/
def loads (d : Dialect) (options : Options) (q : CompiledQuery) : Bool :=
  match d with
  | .postgres =>
    (QueryPostgres.fromConfig ⟨options.connection, q.statement, q.parameters, options.batchSize⟩).isOk
  | .mySql =>
    (QueryMysql.fromConfig
      ⟨options.connection, q.statement, q.parameters, options.batchSize, options.callTimeoutMs⟩).isOk
  | .sqlServer =>
    (QuerySqlServer.fromConfig ⟨options.connection, q.statement, q.parameters, options.batchSize⟩).isOk

/-- The filter compares with no integer above `i64::MAX`, nor lists one. -/
def QueryFilter.InRange (filter : QueryFilter) : Prop :=
  match filter.operator with
  | .contains | .startsWith | .isNull | .isNotNull => True
  | .in => ∀ item ∈ listItems filter.value, exceedsBigint item = false
  | _ => exceedsBigint filter.value = false

/-! ### The first word of the statement -/

theorem trim_eq_rdropWhile (s : List Char) : trim s = (s.dropWhile isWhitespace).rdropWhile isWhitespace := rfl

/-- Blanks at the end of a text are not part of its first word. -/
theorem takeWhile_rdropWhile {α : Type} (p : α → Bool) (l : List α) :
    (l.rdropWhile p).takeWhile (fun a => !p a) = l.takeWhile fun a => !p a := by
  induction l using List.reverseRecOn with
  | nil => rfl
  | append_singleton l a ih =>
    by_cases ha : p a = true
    · rw [List.rdropWhile_concat_pos p l a ha, ih]
      have hlast : [a].takeWhile (fun a => !p a) = [] := by simp [ha]
      rw [List.takeWhile_append, hlast, List.append_nil]
      split
      next h => exact List.IsPrefix.eq_of_length (List.takeWhile_prefix _) h
      next => rfl
    · rw [List.rdropWhile_concat_neg p l a ha]

theorem firstWord_trim {c : Char} {s : List Char} (hc : isWhitespace c = false) :
    firstWord (trim (c :: s)) = (c :: s).takeWhile fun c => !isWhitespace c := by
  have hkeep : (c :: s).dropWhile isWhitespace = c :: s := by simp [hc]
  have hne : (c :: s).rdropWhile isWhitespace ≠ [] := by
    rw [Ne, List.rdropWhile_eq_nil_iff]
    intro h
    exact absurd (h c List.mem_cons_self) (by simp [hc])
  have hword := takeWhile_rdropWhile isWhitespace (c :: s)
  rw [trim_eq_rdropWhile, hkeep, firstWord, ← hword]
  have hprefix := List.rdropWhile_prefix isWhitespace (c :: s)
  cases hd : (c :: s).rdropWhile isWhitespace with
  | nil => exact absurd hd hne
  | cons x xs =>
    rw [hd] at hprefix
    rw [(List.cons_prefix_cons.mp hprefix).1, List.dropWhile_cons_of_neg (by simp [hc])]

theorem compile_statement_select {spec : QuerySpec} {d : Dialect} {q : CompiledQuery} (h : compile spec d = .ok q) :
    ∃ rest, q.statement.toList = 'S' :: 'E' :: 'L' :: 'E' :: 'C' :: 'T' :: ' ' :: rest := by
  obtain ⟨columns, source, joins, filters, groups, orders, -, -, -, -, -, -, hstatement, -⟩ := compile_ok h
  simp only [String.append_assoc] at hstatement
  rw [hstatement, String.toList_append]
  exact ⟨_, rfl⟩

theorem compile_firstWord {spec : QuerySpec} {d : Dialect} {q : CompiledQuery} (h : compile spec d = .ok q) :
    firstWord (trim q.statement.toList) = ['S', 'E', 'L', 'E', 'C', 'T'] := by
  obtain ⟨rest, hrest⟩ := compile_statement_select h
  rw [hrest, firstWord_trim (by decide)]
  rfl

/-! ### The parameters -/

theorem compileClause_bound_not_null {d : Dialect} {field : String} {filter : QueryFilter} {parameters : List Json}
    {clause : String × List Json} (h : compileClause d field filter parameters = .ok clause)
    (hnull : isNull filter.value = true → filter.operator.admitsNull = true) :
    ∀ v ∈ filter.bound, isNull v = false := by
  have hvalue : filter.operator.admitsNull = false → isNull filter.value = false := by
    intro hadmits
    rw [← Bool.not_eq_true]
    exact fun h => absurd (hnull h) (by rw [hadmits]; exact Bool.false_ne_true)
  obtain ⟨name, operator, value⟩ := filter
  intro v hv
  cases operator with
  | eq | notEq =>
    dsimp only [QueryFilter.bound] at hv
    split at hv
    next => cases hv
    next hne => exact List.mem_singleton.mp hv ▸ Bool.eq_false_of_not_eq_true hne
  | isNull | isNotNull => cases hv
  | contains | startsWith => exact List.mem_singleton.mp hv ▸ rfl
  | «in» =>
    dsimp only [compileClause] at h
    unfold compileIn at h
    cases value with
    | array items =>
      dsimp only at h
      split at h
      · cases h
      · split at h
        · cases h
        next hany =>
          have hitems := List.any_eq_false.mp (Bool.eq_false_of_not_eq_true hany)
          exact Bool.eq_false_of_not_eq_true (hitems v hv)
    | _ => cases h
  | _ => exact List.mem_singleton.mp hv ▸ hvalue rfl

theorem compileFilter_bound_not_null {d : Dialect} {filter : QueryFilter} {parameters : List Json}
    {clause : String × List Json} (h : compileFilter d filter parameters = .ok clause) :
    ∀ v ∈ filter.bound, isNull v = false := by
  obtain ⟨field, -, h⟩ := bind_ok h
  split at h
  · cases h
  next hadmits =>
    refine compileClause_bound_not_null h fun hnull => ?_
    rw [hnull, Bool.true_and, Bool.not_eq_true', Bool.not_eq_false] at hadmits
    exact hadmits

theorem compileFilters_bound_not_null {d : Dialect} {filters : List QueryFilter} {parameters : List Json}
    {out : List String × List Json} (h : compileFilters d filters parameters = .ok out) :
    ∀ filter ∈ filters, ∀ v ∈ filter.bound, isNull v = false := by
  induction filters generalizing parameters out with
  | nil => exact fun filter hfilter => absurd hfilter List.not_mem_nil
  | cons filter filters ih =>
    obtain ⟨clause, hclause, h⟩ := bind_ok h
    obtain ⟨rest, hrest, -⟩ := bind_ok h
    exact List.forall_mem_cons.mpr ⟨compileFilter_bound_not_null hclause, ih hrest⟩

theorem exceedsBigint_of_isNull {v : Json} (h : isNull v = true) : exceedsBigint v = false := by
  cases v with
  | null => rfl
  | _ => cases h

/-- What a filter binds is in range exactly when the filter is. -/
theorem QueryFilter.inRange_iff (filter : QueryFilter) :
    filter.InRange ↔ ∀ v ∈ filter.bound, exceedsBigint v = false := by
  obtain ⟨name, operator, value⟩ := filter
  cases operator with
  | eq | notEq =>
    dsimp only [InRange, bound]
    split
    next hnull => exact iff_of_true (exceedsBigint_of_isNull hnull) fun v hv => absurd hv List.not_mem_nil
    next => rw [List.forall_mem_singleton]
  | isNull | isNotNull => exact iff_of_true trivial fun v hv => absurd hv List.not_mem_nil
  | contains | startsWith => exact iff_of_true trivial fun v hv => List.mem_singleton.mp hv ▸ rfl
  | «in» => rfl
  | _ => exact (@List.forall_mem_singleton _ (fun v => exceedsBigint v = false) value).symm

/-- A compiled query is accepted when the flow is loaded exactly when none of its filters compares
with an integer above `i64::MAX`. -/
theorem compile_loads_iff (spec : QuerySpec) (d : Dialect) (q : CompiledQuery) (options : Options)
    (h : compile spec d = .ok q) :
    loads d options q = true ↔ ∀ filter ∈ spec.filters, filter.InRange := by
  have hword := compile_firstWord h
  have hblank : (trim q.statement.toList).isEmpty = false := by
    cases hq : trim q.statement.toList with
    | nil =>
      rw [hq] at hword
      cases hword
    | cons c s => rfl
  have hbindable : (∀ v ∈ q.parameters, Bindable v) ↔ ∀ filter ∈ spec.filters, filter.InRange := by
    obtain ⟨-, -, -, filters, -, -, -, -, -, hfilters, -, -, -, hparameters⟩ := compile_ok h
    have hnull := compileFilters_bound_not_null hfilters
    rw [hparameters, (compileFilters_ok hfilters).1, List.nil_append]
    simp only [List.mem_flatMap, QueryFilter.inRange_iff]
    constructor
    · exact fun hv filter hfilter v hmem => (hv v ⟨filter, hfilter, hmem⟩).2
    · rintro hv v ⟨filter, hfilter, hmem⟩
      exact ⟨hnull filter hfilter v hmem, hv filter hfilter v hmem⟩
  rw [← hbindable]
  cases d with
  | postgres => exact QueryPostgres.fromConfig_isOk_iff hblank
  | mySql => exact QueryMysql.fromConfig_isOk_iff hblank
  | sqlServer =>
    have hkeyword : (firstWord (trim q.statement.toList)).map Char.toUpper = ['S', 'E', 'L', 'E', 'C', 'T'] := by
      rw [hword]
      rfl
    exact @QuerySqlServer.fromConfig_isOk_iff
      ⟨options.connection, q.statement, q.parameters, options.batchSize⟩ hkeyword

/-- One column, one filter. -/
def singleFilter (value : Json) : QuerySpec where
  source := ⟨none, "t"⟩
  columns := ["*"]
  joins := []
  filters := [⟨"id", .eq, value⟩]
  groupBy := []
  orderBy := []
  limit := none

theorem compile_loads_iff_seven : ∃ q, compile (singleFilter (.number (.posInt 7))) .sqlServer = .ok q ∧
    (loads .sqlServer ⟨"main", 1000, 300000⟩ q = true ↔
      ∀ filter ∈ (singleFilter (.number (.posInt 7))).filters, filter.InRange) := by
  have hrun : (compile (singleFilter (.number (.posInt 7))) .sqlServer).isOk = true := by decide +kernel
  obtain ⟨q, hq⟩ := ok_of_isOk hrun
  exact ⟨q, hq, compile_loads_iff _ .sqlServer q ⟨"main", 1000, 300000⟩ hq⟩

/-- `2^63` is compiled, and refused by the processor. -/
theorem compile_refused : ¬ ∀ (spec : QuerySpec) (d : Dialect) (q : CompiledQuery) (options : Options),
    compile spec d = .ok q → loads d options q = true := by
  intro h
  have hrun : (compile (singleFilter (.number (.posInt 9223372036854775808))) .postgres).toOption.any
      (fun q => !loads .postgres ⟨"main", 1000, 300000⟩ q) = true := by decide +kernel
  obtain ⟨q, hq, hrefused⟩ := (Option.any_eq_true _ _).mp hrun
  have hloads := h _ .postgres q ⟨"main", 1000, 300000⟩ (ok_of_toOption hq)
  rw [hloads] at hrefused
  exact absurd hrefused (by decide)

end Jaiba.Server.SqlBuilder
