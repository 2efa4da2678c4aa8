import Mathlib.Data.List.Range
import Jaiba.Json
import Jaiba.Lib.Except

/-!
# SQL builder (`jaiba-server/src/sql_builder.rs`)

`compile` turns a neutral `QuerySpec` into a statement with bound parameters.
Every string the builder writes is spelled by tokens: its own fragments, quoted
identifiers, integers and placeholders. The numbers of the placeholders are
tracked beside, in the order of the text.
-/

namespace Jaiba.Server.SqlBuilder
open Jaiba.Lib

inductive PluginError where
  | configuration (message : String)
  deriving DecidableEq

inductive Dialect where
  | postgres | mySql | sqlServer
  deriving DecidableEq

inductive FilterOperator where
  | eq | notEq | greaterThan | greaterOrEqual | lessThan | lessOrEqual
  | contains | startsWith | in | isNull | isNotNull
  deriving DecidableEq

inductive SortDirection where
  | asc | desc

inductive JoinKind where
  | inner | left | right | full

structure QuerySource where
  schema : Option String
  table : String

structure QueryFilter where
  field : String
  operator : FilterOperator
  value : Json

structure QueryOrder where
  field : String
  direction : SortDirection

structure QueryJoin where
  kind : JoinKind
  source : QuerySource
  left : String
  right : String

structure QuerySpec where
  source : QuerySource
  columns : List String
  joins : List QueryJoin
  filters : List QueryFilter
  groupBy : List String
  orderBy : List QueryOrder
  limit : Option ℕ

structure CompiledQuery where
  statement : String
  parameters : List Json
  processorType : Option String
  executionStatement : Option String

/-! ### Identifiers -/

/-- Unicode `White_Space`, which `str::trim` removes. -/
def isWhitespace (c : Char) : Bool :=
  let n := c.toNat
  (9 ≤ n && n ≤ 13) || n == 32 || n == 0x85 || n == 0xA0 || n == 0x1680 || (0x2000 ≤ n && n ≤ 0x200A) ||
    n == 0x2028 || n == 0x2029 || n == 0x202F || n == 0x205F || n == 0x3000

def trim (s : List Char) : List Char :=
  ((s.dropWhile isWhitespace).reverse.dropWhile isWhitespace).reverse

/-- `[A-Za-z_][A-Za-z0-9_$]*`. -/
def isValidIdentifier : List Char → Bool
  | [] => false
  | first :: rest => (first.isAlpha || first == '_') &&
    rest.all fun c => c.isAlphanum || c == '_' || c == '$'

namespace Dialect

/-- An identifier between the quotes of the dialect. -/
def quoted (d : Dialect) (segment : String) : String :=
  match d with
  | .postgres => "\"" ++ segment ++ "\""
  | .mySql => "`" ++ segment ++ "`"
  | .sqlServer => "[" ++ segment ++ "]"

def quoteSegment (d : Dialect) (identifier : String) (segment : List Char) :
    Except PluginError String :=
  let segment := trim segment
  if segment = ['*'] then .ok "*"
  else if isValidIdentifier segment then .ok (d.quoted (String.ofList segment))
  else .error (.configuration ("identificador SQL no válido: '" ++ identifier ++ "'"))

/-- The segments between dots, each validated and quoted. -/
def quote (d : Dialect) (identifier : String) : Except PluginError String := do
  let parts ← (identifier.toList.splitOn '.').mapM (d.quoteSegment identifier)
  if parts.isEmpty then
    throw (.configuration "identificador vacío")
  return ".".intercalate parts

def likeKeyword : Dialect → String
  | .postgres => "ILIKE"
  | .mySql => "LIKE"
  | .sqlServer => "LIKE"

def placeholder (d : Dialect) (index : ℕ) : String :=
  match d with
  | .postgres => "$" ++ toString index
  | .mySql => "?"
  | .sqlServer => "@P" ++ toString index

end Dialect

/-! ### Clauses -/

def quoteSource (d : Dialect) (source : QuerySource) : Except PluginError String :=
  match source.schema.filter fun schema => !(trim schema.toList).isEmpty with
  | some schema => do
    let schema ← d.quote schema
    let table ← d.quote source.table
    return schema ++ "." ++ table
  | none => d.quote source.table

def scalarString : Json → String
  | .string text => text
  | .number n => n.render
  | .bool flag => toString flag
  | _ => ""

def isNull : Json → Bool
  | .null => true
  | _ => false

/-- The closure `bind`: the placeholder and the grown parameters. -/
def bind (d : Dialect) (parameters : List Json) (value : Json) : String × List Json :=
  (d.placeholder (parameters.length + 1), parameters ++ [value])

/-- `bind` over the items of a list, from left to right. -/
def bindAll (d : Dialect) : List Json → List Json → List String × List Json
  | parameters, [] => ([], parameters)
  | parameters, item :: items =>
    let head := bind d parameters item
    let rest := bindAll d head.2 items
    (head.1 :: rest.1, rest.2)

/-- A clause `field operator placeholder`. -/
def comparison (d : Dialect) (field symbol : String) (parameters : List Json) (value : Json) :
    String × List Json :=
  let bound := bind d parameters value
  (field ++ symbol ++ bound.1, bound.2)

def compileIn (d : Dialect) (field : String) (parameters : List Json) (value : Json) :
    Except PluginError (String × List Json) :=
  match value with
  | .array items =>
    if items.isEmpty then
      .error (.configuration "la lista del operador IN no puede estar vacía")
    else if items.any isNull then
      .error (.configuration "la lista del operador IN no puede contener valores null")
    else
      let bound := bindAll d parameters items
      .ok (field ++ " IN (" ++ ", ".intercalate bound.1 ++ ")", bound.2)
  | _ => .error (.configuration "el operador IN requiere una lista")

/-- The clause of a filter whose field is quoted. -/
def compileClause (d : Dialect) (field : String) (filter : QueryFilter) (parameters : List Json) :
    Except PluginError (String × List Json) :=
  match filter.operator with
  | .eq =>
    if isNull filter.value then .ok (field ++ " IS NULL", parameters)
    else .ok (comparison d field " = " parameters filter.value)
  | .notEq =>
    if isNull filter.value then .ok (field ++ " IS NOT NULL", parameters)
    else .ok (comparison d field " <> " parameters filter.value)
  | .greaterThan => .ok (comparison d field " > " parameters filter.value)
  | .greaterOrEqual => .ok (comparison d field " >= " parameters filter.value)
  | .lessThan => .ok (comparison d field " < " parameters filter.value)
  | .lessOrEqual => .ok (comparison d field " <= " parameters filter.value)
  | .contains =>
    let pattern := Json.string ("%" ++ scalarString filter.value ++ "%")
    .ok (comparison d field (" " ++ d.likeKeyword ++ " ") parameters pattern)
  | .startsWith =>
    let pattern := Json.string (scalarString filter.value ++ "%")
    .ok (comparison d field (" " ++ d.likeKeyword ++ " ") parameters pattern)
  | .in => compileIn d field parameters filter.value
  | .isNull => .ok (field ++ " IS NULL", parameters)
  | .isNotNull => .ok (field ++ " IS NOT NULL", parameters)

def FilterOperator.admitsNull : FilterOperator → Bool
  | .eq | .notEq | .isNull | .isNotNull => true
  | _ => false

def compileFilter (d : Dialect) (filter : QueryFilter) (parameters : List Json) :
    Except PluginError (String × List Json) := do
  let field ← d.quote filter.field
  if isNull filter.value && !filter.operator.admitsNull then
    .error (.configuration
      "un valor null sólo admite los operadores igual, distinto, IS NULL o IS NOT NULL")
  else
    compileClause d field filter parameters

/-- The loop over the filters. -/
def compileFilters (d : Dialect) : List QueryFilter → List Json →
    Except PluginError (List String × List Json)
  | [], parameters => .ok ([], parameters)
  | filter :: filters, parameters => do
    let clause ← compileFilter d filter parameters
    let rest ← compileFilters d filters clause.2
    return (clause.1 :: rest.1, rest.2)

def JoinKind.keyword : JoinKind → String
  | .inner => "INNER JOIN"
  | .left => "LEFT JOIN"
  | .right => "RIGHT JOIN"
  | .full => "FULL JOIN"

def compileJoin (d : Dialect) (join : QueryJoin) : Except PluginError String := do
  let target ← quoteSource d join.source
  let left ← d.quote join.left
  let right ← d.quote join.right
  return " " ++ join.kind.keyword ++ " " ++ target ++ " ON " ++ left ++ " = " ++ right

def SortDirection.keyword : SortDirection → String
  | .asc => "ASC"
  | .desc => "DESC"

def compileOrder (d : Dialect) (order : QueryOrder) : Except PluginError String := do
  let field ← d.quote order.field
  return field ++ " " ++ order.direction.keyword

/-- A clause that is left out where there is nothing to list. -/
def listed (opening separator : String) (items : List String) : String :=
  if items.isEmpty then "" else opening ++ separator.intercalate items

def Dialect.top (d : Dialect) (limit : Option ℕ) : String :=
  match d, limit with
  | .sqlServer, some limit => "TOP (" ++ toString limit ++ ") "
  | _, _ => ""

def Dialect.limitClause (d : Dialect) (limit : Option ℕ) : String :=
  match d, limit with
  | .sqlServer, _ => ""
  | _, some limit => " LIMIT " ++ toString limit
  | _, none => ""

def compile (spec : QuerySpec) (d : Dialect) : Except PluginError CompiledQuery := do
  if spec.columns.isEmpty then
    throw (.configuration "selecciona al menos una columna")
  let columns ← spec.columns.mapM d.quote
  let source ← quoteSource d spec.source
  let joins ← spec.joins.mapM (compileJoin d)
  let filters ← compileFilters d spec.filters []
  let groups ← spec.groupBy.mapM d.quote
  let orders ← spec.orderBy.mapM (compileOrder d)
  return {
    statement := "SELECT " ++ d.top spec.limit ++ ", ".intercalate columns ++ " FROM " ++ source ++
      String.join joins ++ listed " WHERE " " AND " filters.1 ++ listed " GROUP BY " ", " groups ++
      listed " ORDER BY " ", " orders ++ d.limitClause spec.limit
    parameters := filters.2
    processorType := none
    executionStatement := none }

/-! ### Tokens -/

/-- What the builder writes of its own. -/
def fragments : List String :=
  ["SELECT ", "TOP (", ") ", " FROM ", ", ", ".", " ", "INNER JOIN", "LEFT JOIN", "RIGHT JOIN",
    "FULL JOIN", " ON ", " = ", " <> ", " > ", " >= ", " < ", " <= ", "ILIKE", "LIKE", " IN (", ")",
    " IS NULL", " IS NOT NULL", " WHERE ", " AND ", " GROUP BY ", " ORDER BY ", "ASC", "DESC",
    " LIMIT "]

inductive Token where
  | fragment (text : String)
  | identifier (name : List Char)
  | star
  | integer (n : ℕ)
  | placeholder (index : ℕ)

def Token.render (d : Dialect) : Token → String
  | .fragment text => text
  | .identifier name => d.quoted (String.ofList name)
  | .star => "*"
  | .integer n => toString n
  | .placeholder index => d.placeholder index

/-- A fragment of the builder, or an identifier that needs no escaping. -/
def Token.Safe : Token → Prop
  | .fragment text => text ∈ fragments
  | .identifier name => isValidIdentifier name = true
  | _ => True

def Token.index? : Token → Option ℕ
  | .placeholder index => some index
  | _ => none

def spell (d : Dialect) : List Token → String
  | [] => ""
  | t :: ts => t.render d ++ spell d ts

theorem spell_append (d : Dialect) (ts us : List Token) :
    spell d (ts ++ us) = spell d ts ++ spell d us := by
  induction ts with
  | nil => rw [List.nil_append, spell, String.empty_append]
  | cons t ts ih => rw [List.cons_append, spell, spell, ih, String.append_assoc]

/-- `s` is spelled by safe tokens whose placeholders are numbered `indices`, from
left to right. -/
def Spelled (d : Dialect) (s : String) (indices : List ℕ) : Prop :=
  ∃ tokens : List Token, s = spell d tokens ∧ (∀ t ∈ tokens, t.Safe) ∧
    tokens.filterMap Token.index? = indices

namespace Spelled

variable {d : Dialect} {s t : String} {is js : List ℕ}

theorem empty : Spelled d "" [] := ⟨[], rfl, fun _ h => (List.not_mem_nil h).elim, rfl⟩

theorem token (t : Token) (ht : t.Safe) : Spelled d (t.render d) t.index?.toList := by
  refine ⟨[t], ?_, fun u hu => ?_, ?_⟩
  · rw [spell, spell, String.append_empty]
  · rw [List.mem_singleton.mp hu]
    exact ht
  · cases t <;> rfl

theorem fragment (h : s ∈ fragments) : Spelled d s [] := token (.fragment s) h

theorem append (hs : Spelled d s is) (ht : Spelled d t js) : Spelled d (s ++ t) (is ++ js) := by
  obtain ⟨ts, rfl, hsafe, rfl⟩ := hs
  obtain ⟨us, rfl, hsafe', rfl⟩ := ht
  refine ⟨ts ++ us, (spell_append d ts us).symm, fun u hu => ?_, List.filterMap_append⟩
  rcases List.mem_append.mp hu with hu | hu
  · exact hsafe u hu
  · exact hsafe' u hu

/-- Text without placeholders before and after. -/
theorem append_plain (hs : Spelled d s is) (ht : Spelled d t []) : Spelled d (s ++ t) is := by
  have h := hs.append ht
  rwa [List.append_nil] at h

theorem plain_append (hs : Spelled d s []) (ht : Spelled d t js) : Spelled d (s ++ t) js := hs.append ht

theorem intercalate {sep : String} (hsep : sep ∈ fragments) {items : List String}
    {indices : List (List ℕ)} (h : List.Forall₂ (Spelled d) items indices) :
    Spelled d (sep.intercalate items) indices.flatten := by
  induction h with
  | nil =>
    rw [String.intercalate_nil]
    exact empty
  | cons hitem hrest ih =>
    cases hrest with
    | nil =>
      rw [String.intercalate_singleton, List.flatten_cons, List.flatten_nil, List.append_nil]
      exact hitem
    | cons hnext hrest =>
      rw [String.intercalate_cons_cons, List.flatten_cons, String.append_assoc]
      exact hitem.append ((fragment hsep).plain_append ih)

theorem intercalate_plain {sep : String} (hsep : sep ∈ fragments) {items : List String}
    (h : ∀ item ∈ items, Spelled d item []) : Spelled d (sep.intercalate items) [] := by
  have hall : List.Forall₂ (Spelled d) items (items.map fun _ => []) := by
    induction items with
    | nil => exact .nil
    | cons item items ih =>
      exact .cons (h item List.mem_cons_self) (ih fun i hi => h i (List.mem_cons_of_mem item hi))
  have hjoin := intercalate hsep hall
  have hnil : (items.map fun _ => ([] : List ℕ)).flatten = [] := by
    rw [List.flatten_eq_nil_iff]
    intro l hl
    obtain ⟨_, -, rfl⟩ := List.mem_map.mp hl
    rfl
  rwa [hnil] at hjoin

theorem join {items : List String} (h : ∀ item ∈ items, Spelled d item []) :
    Spelled d (String.join items) [] := by
  induction items with
  | nil => exact empty
  | cons item items ih =>
    rw [String.join_cons]
    exact (h item List.mem_cons_self).append (ih fun i hi => h i (List.mem_cons_of_mem item hi))

theorem listed {opening sep : String} (ho : opening ∈ fragments) (hsep : sep ∈ fragments)
    {items : List String} {indices : List (List ℕ)} (h : List.Forall₂ (Spelled d) items indices) :
    Spelled d (listed opening sep items) indices.flatten := by
  rw [SqlBuilder.listed]
  cases h with
  | nil => exact empty
  | cons hitem hrest => exact (fragment ho).plain_append (intercalate hsep (.cons hitem hrest))

theorem listed_plain {opening sep : String} (ho : opening ∈ fragments) (hsep : sep ∈ fragments)
    {items : List String} (h : ∀ item ∈ items, Spelled d item []) :
    Spelled d (SqlBuilder.listed opening sep items) [] := by
  rw [SqlBuilder.listed]
  split
  · exact empty
  · exact (fragment ho).plain_append (intercalate_plain hsep h)

end Spelled

/-! ### Spelling of the clauses -/

variable {d : Dialect}

theorem quoteSegment_spelled {identifier : String} {segment : List Char} {s : String}
    (h : d.quoteSegment identifier segment = .ok s) : Spelled d s [] := by
  unfold Dialect.quoteSegment at h
  dsimp only at h
  split at h
  · cases h
    exact .token .star trivial
  · split at h
    · next hvalid =>
      cases h
      exact .token (.identifier (trim segment)) hvalid
    · cases h

theorem quote_spelled {identifier s : String} (h : d.quote identifier = .ok s) :
    Spelled d s [] := by
  obtain ⟨parts, hparts, h⟩ := bind_ok h
  have hall : ∀ part ∈ parts, Spelled d part [] := by
    intro part hpart
    obtain ⟨segment, -, hseg⟩ := exists_of_mapM_ok hparts hpart
    exact quoteSegment_spelled hseg
  split at h
  · cases h
  · cases h
    exact .intercalate_plain (by decide) hall

theorem quoteSource_spelled {source : QuerySource} {s : String} (h : quoteSource d source = .ok s) :
    Spelled d s [] := by
  unfold quoteSource at h
  split at h
  · obtain ⟨schema, hschema, h⟩ := bind_ok h
    obtain ⟨table, htable, h⟩ := bind_ok h
    cases h
    exact ((quote_spelled hschema).append_plain (.fragment (by decide))).append_plain
      (quote_spelled htable)
  · exact quote_spelled h

theorem compileJoin_spelled {join : QueryJoin} {s : String} (h : compileJoin d join = .ok s) :
    Spelled d s [] := by
  obtain ⟨target, htarget, h⟩ := bind_ok h
  obtain ⟨left, hleft, h⟩ := bind_ok h
  obtain ⟨right, hright, h⟩ := bind_ok h
  cases h
  have hkeyword : join.kind.keyword ∈ fragments := by
    cases join.kind <;> decide
  have hspace : Spelled d " " [] := .fragment (by decide)
  have hon : Spelled d " ON " [] := .fragment (by decide)
  have heq : Spelled d " = " [] := .fragment (by decide)
  exact ((((((hspace.append_plain (.fragment hkeyword)).append_plain hspace).append_plain
    (quoteSource_spelled htarget)).append_plain hon).append_plain
    (quote_spelled hleft)).append_plain heq).append_plain (quote_spelled hright)

theorem compileOrder_spelled {order : QueryOrder} {s : String} (h : compileOrder d order = .ok s) :
    Spelled d s [] := by
  obtain ⟨field, hfield, h⟩ := bind_ok h
  cases h
  have hkeyword : order.direction.keyword ∈ fragments := by
    cases order.direction <;> decide
  exact ((quote_spelled hfield).append_plain (.fragment (by decide))).append_plain
    (.fragment hkeyword)

/-! ### Parameters -/

def listItems : Json → List Json
  | .array items => items
  | _ => []

/-- What a filter binds. -/
def QueryFilter.bound (filter : QueryFilter) : List Json :=
  match filter.operator with
  | .eq | .notEq => if isNull filter.value then [] else [filter.value]
  | .contains => [.string ("%" ++ scalarString filter.value ++ "%")]
  | .startsWith => [.string (scalarString filter.value ++ "%")]
  | .in => listItems filter.value
  | .isNull | .isNotNull => []
  | _ => [filter.value]

theorem bindAll_parameters (d : Dialect) (parameters items : List Json) :
    (bindAll d parameters items).2 = parameters ++ items := by
  induction items generalizing parameters with
  | nil => rw [bindAll, List.append_nil]
  | cons item items ih =>
    rw [bindAll]
    dsimp only
    rw [ih, bind, List.append_assoc, List.singleton_append]

theorem bindAll_spelled (d : Dialect) (parameters items : List Json) :
    List.Forall₂ (Spelled d) (bindAll d parameters items).1
      ((List.range' (parameters.length + 1) items.length).map fun index => [index]) := by
  induction items generalizing parameters with
  | nil => exact .nil
  | cons item items ih =>
    have hrest := ih (parameters ++ [item])
    rw [List.length_append, List.length_singleton] at hrest
    rw [bindAll, List.length_cons, List.range'_succ, List.map_cons]
    exact .cons (.token (.placeholder _) trivial) hrest

theorem comparison_spelled {field symbol : String} (parameters : List Json) (value : Json)
    (hfield : Spelled d field []) (hsymbol : Spelled d symbol []) :
    Spelled d (comparison d field symbol parameters value).1 [parameters.length + 1] :=
  (hfield.append_plain hsymbol).plain_append (.token (.placeholder _) trivial)

theorem compileIn_ok {field : String} {parameters : List Json} {value : Json}
    {clause : String × List Json} (h : compileIn d field parameters value = .ok clause) :
    ∃ items : List Json, value = .array items ∧
      clause = (field ++ " IN (" ++ ", ".intercalate (bindAll d parameters items).1 ++ ")",
        (bindAll d parameters items).2) := by
  unfold compileIn at h
  split at h
  · split at h
    · cases h
    · split at h
      · cases h
      · cases h
        exact ⟨_, rfl, rfl⟩
  · cases h

/-- A clause binds what its filter holds, behind placeholders numbered on from the
parameters there are. -/
theorem compileClause_ok {field : String} {filter : QueryFilter} {parameters : List Json}
    {clause : String × List Json} (hf : Spelled d field [])
    (h : compileClause d field filter parameters = .ok clause) :
    clause.2 = parameters ++ filter.bound ∧
      Spelled d clause.1 (List.range' (parameters.length + 1) filter.bound.length) := by
  have hnull : Spelled d (field ++ " IS NULL") [] := hf.append_plain (.fragment (by decide))
  have hnotNull : Spelled d (field ++ " IS NOT NULL") [] := hf.append_plain (.fragment (by decide))
  have hcompare {symbol : String} (hs : symbol ∈ fragments) (value : Json) :=
    comparison_spelled parameters value hf (.fragment hs)
  have hlike : Spelled d (" " ++ d.likeKeyword ++ " ") [] := by
    have hspace : Spelled d " " [] := .fragment (by decide)
    refine (hspace.append_plain (.fragment ?_)).append_plain hspace
    cases d <;> decide
  unfold QueryFilter.bound
  unfold compileClause at h
  cases hop : filter.operator with
  | eq =>
    rw [hop] at h
    dsimp only at h ⊢
    split at h
    · next hn =>
      cases h
      rw [if_pos hn, List.append_nil]
      exact ⟨rfl, hnull⟩
    · next hn =>
      cases h
      rw [if_neg hn]
      exact ⟨rfl, hcompare (by decide) _⟩
  | notEq =>
    rw [hop] at h
    dsimp only at h ⊢
    split at h
    · next hn =>
      cases h
      rw [if_pos hn, List.append_nil]
      exact ⟨rfl, hnotNull⟩
    · next hn =>
      cases h
      rw [if_neg hn]
      exact ⟨rfl, hcompare (by decide) _⟩
  | greaterThan | greaterOrEqual | lessThan | lessOrEqual =>
    rw [hop] at h
    cases h
    exact ⟨rfl, hcompare (by decide) _⟩
  | contains | startsWith =>
    rw [hop] at h
    cases h
    exact ⟨rfl, comparison_spelled parameters _ hf hlike⟩
  | isNull =>
    rw [hop] at h
    cases h
    exact ⟨(List.append_nil _).symm, hnull⟩
  | isNotNull =>
    rw [hop] at h
    cases h
    exact ⟨(List.append_nil _).symm, hnotNull⟩
  | «in» =>
    rw [hop] at h
    obtain ⟨items, hitems, rfl⟩ := compileIn_ok h
    rw [hitems]
    have hcomma : ", " ∈ fragments := by decide
    have hlist := Spelled.intercalate hcomma (bindAll_spelled d parameters items)
    rw [← List.flatMap_def, List.flatMap_singleton'] at hlist
    exact ⟨bindAll_parameters d parameters items,
      ((hf.append_plain (.fragment (by decide))).plain_append hlist).append_plain
        (.fragment (by decide))⟩

theorem compileFilter_ok {filter : QueryFilter} {parameters : List Json}
    {clause : String × List Json} (h : compileFilter d filter parameters = .ok clause) :
    clause.2 = parameters ++ filter.bound ∧
      Spelled d clause.1 (List.range' (parameters.length + 1) filter.bound.length) := by
  obtain ⟨field, hfield, h⟩ := bind_ok h
  split at h
  · cases h
  · exact compileClause_ok (quote_spelled hfield) h

/-- The clauses in the order of their filters: each one's placeholders number the
parameters of its own filter. -/
def Binds (d : Dialect) : ℕ → List QueryFilter → List String → Prop
  | _, [], [] => True
  | count, filter :: filters, clause :: clauses =>
    Spelled d clause (List.range' (count + 1) filter.bound.length) ∧
      Binds d (count + filter.bound.length) filters clauses
  | _, _, _ => False

theorem Binds.listed {count : ℕ} {filters : List QueryFilter} {clauses : List String}
    (h : Binds d count filters clauses) :
    Spelled d (listed " WHERE " " AND " clauses)
      (List.range' (count + 1) (filters.flatMap QueryFilter.bound).length) := by
  have hall : ∃ indices : List (List ℕ), List.Forall₂ (Spelled d) clauses indices ∧
      indices.flatten = List.range' (count + 1) (filters.flatMap QueryFilter.bound).length := by
    induction filters generalizing count clauses with
    | nil =>
      cases clauses with
      | nil => exact ⟨[], .nil, rfl⟩
      | cons clause clauses => exact h.elim
    | cons filter filters ih =>
      cases clauses with
      | nil => exact h.elim
      | cons clause clauses =>
        obtain ⟨hclause, hrest⟩ := h
        obtain ⟨indices, hspelled, hflat⟩ := ih hrest
        refine ⟨_ :: indices, .cons hclause hspelled, ?_⟩
        rw [List.flatten_cons, hflat, List.flatMap_cons, List.length_append,
          Nat.add_right_comm, List.range'_append_1]
  obtain ⟨indices, hspelled, hflat⟩ := hall
  rw [← hflat]
  exact .listed (by decide) (by decide) hspelled

theorem compileFilters_ok {filters : List QueryFilter} {parameters : List Json}
    {out : List String × List Json} (h : compileFilters d filters parameters = .ok out) :
    out.2 = parameters ++ filters.flatMap QueryFilter.bound ∧
      Binds d parameters.length filters out.1 := by
  induction filters generalizing parameters out with
  | nil =>
    cases h
    exact ⟨(List.append_nil _).symm, trivial⟩
  | cons filter filters ih =>
    obtain ⟨clause, hclause, h⟩ := bind_ok h
    obtain ⟨rest, hrest, h⟩ := bind_ok h
    cases h
    obtain ⟨hbound, hspelled⟩ := compileFilter_ok hclause
    obtain ⟨hparameters, hbinds⟩ := ih hrest
    rw [hbound, List.length_append] at hbinds
    rw [List.flatMap_cons, ← List.append_assoc, ← hbound]
    exact ⟨hparameters, hspelled, hbinds⟩

theorem top_spelled (d : Dialect) (limit : Option ℕ) : Spelled d (d.top limit) [] := by
  unfold Dialect.top
  split
  · exact ((Spelled.fragment (by decide)).append_plain (.token (.integer _) trivial)).append_plain
      (.fragment (by decide))
  · exact .empty

theorem limitClause_spelled (d : Dialect) (limit : Option ℕ) :
    Spelled d (d.limitClause limit) [] := by
  unfold Dialect.limitClause
  split
  · exact .empty
  · exact (Spelled.fragment (by decide)).append_plain (.token (.integer _) trivial)
  · exact .empty

/-! ### Values and text -/

/-- Filters that differ in their values only, null in neither or both, and with
lists of one length. -/
structure QueryFilter.SameShape (f g : QueryFilter) : Prop where
  field : f.field = g.field
  operator : f.operator = g.operator
  null : isNull f.value = isNull g.value
  items : (listItems f.value).length = (listItems g.value).length

theorem bindAll_text {ps qs : List Json} (hcount : ps.length = qs.length) {xs ys : List Json}
    (hitems : xs.length = ys.length) : (bindAll d ps xs).1 = (bindAll d qs ys).1 := by
  induction xs generalizing ps qs ys with
  | nil =>
    rw [List.length_eq_zero_iff.mp hitems.symm]
    rfl
  | cons x xs ih =>
    cases ys with
    | nil => cases hitems
    | cons y ys =>
      have hrest : (bindAll d (ps ++ [x]) xs).1 = (bindAll d (qs ++ [y]) ys).1 := by
        refine ih ?_ (Nat.succ.inj hitems)
        rw [List.length_append, List.length_append, hcount]
        rfl
      simp only [bindAll, bind, hcount, hrest]

theorem compileClause_text {field : String} {f g : QueryFilter} (hshape : f.SameShape g)
    {ps qs : List Json} (hcount : ps.length = qs.length) {c c' : String × List Json}
    (h : compileClause d field f ps = .ok c) (h' : compileClause d field g qs = .ok c') :
    c.1 = c'.1 := by
  unfold compileClause at h h'
  rw [← hshape.operator] at h'
  cases hop : f.operator with
  | eq | notEq =>
    rw [hop] at h h'
    rw [← hshape.null] at h'
    dsimp only at h h'
    split at h
    all_goals
      next hn =>
      cases h
      simp only [hn] at h'
      cases h'
      simp only [comparison, bind, hcount]
  | greaterThan | greaterOrEqual | lessThan | lessOrEqual | contains | startsWith =>
    rw [hop] at h h'
    cases h
    cases h'
    simp only [comparison, bind, hcount]
  | isNull | isNotNull =>
    rw [hop] at h h'
    cases h
    cases h'
    rfl
  | «in» =>
    rw [hop] at h h'
    dsimp only at h h'
    obtain ⟨xs, hxs, rfl⟩ := compileIn_ok h
    obtain ⟨ys, hys, rfl⟩ := compileIn_ok h'
    have hitems := hshape.items
    rw [hxs, hys] at hitems
    have htext : (bindAll d ps xs).1 = (bindAll d qs ys).1 := bindAll_text hcount hitems
    rw [htext]

theorem compileFilter_text {f g : QueryFilter} (hshape : f.SameShape g) {ps qs : List Json}
    (hcount : ps.length = qs.length) {c c' : String × List Json}
    (h : compileFilter d f ps = .ok c) (h' : compileFilter d g qs = .ok c') : c.1 = c'.1 := by
  obtain ⟨field, hfield, h⟩ := bind_ok h
  obtain ⟨field', hfield', h'⟩ := bind_ok h'
  rw [← hshape.field, hfield] at hfield'
  cases hfield'
  split at h
  · cases h
  · split at h'
    · cases h'
    · exact compileClause_text hshape hcount h h'

theorem QueryFilter.SameShape.length_bound {f g : QueryFilter} (hshape : f.SameShape g) :
    f.bound.length = g.bound.length := by
  have hitems := hshape.items
  unfold QueryFilter.bound
  rw [← hshape.operator, ← hshape.null]
  cases f.operator with
  | eq | notEq =>
    dsimp only
    split
    · rfl
    · rfl
  | greaterThan | greaterOrEqual | lessThan | lessOrEqual | contains | startsWith => rfl
  | isNull | isNotNull => rfl
  | «in» => exact hshape.items

theorem compileFilters_text {filters filters' : List QueryFilter}
    (hshape : List.Forall₂ QueryFilter.SameShape filters filters') {ps qs : List Json}
    (hcount : ps.length = qs.length) {out out' : List String × List Json}
    (h : compileFilters d filters ps = .ok out) (h' : compileFilters d filters' qs = .ok out') :
    out.1 = out'.1 := by
  induction hshape generalizing ps qs out out' with
  | nil =>
    cases h
    cases h'
    rfl
  | cons hfirst hrest ih =>
    obtain ⟨clause, hclause, h⟩ := bind_ok h
    obtain ⟨rest, hclauses, h⟩ := bind_ok h
    obtain ⟨clause', hclause', h'⟩ := bind_ok h'
    obtain ⟨rest', hclauses', h'⟩ := bind_ok h'
    cases h
    cases h'
    have hgrown : clause.2.length = clause'.2.length := by
      rw [(compileFilter_ok hclause).1, (compileFilter_ok hclause').1, List.length_append,
        List.length_append, hcount, hfirst.length_bound]
    rw [compileFilter_text hfirst hcount hclause hclause', ih hgrown hclauses hclauses']

/-! ### The statement -/

/-- What a successful compilation is made of. -/
theorem compile_ok {spec : QuerySpec} {q : CompiledQuery} (h : compile spec d = .ok q) :
    ∃ (columns : List String) (source : String) (joins : List String)
      (filters : List String × List Json) (groups orders : List String),
      spec.columns.mapM d.quote = .ok columns ∧ quoteSource d spec.source = .ok source ∧
      spec.joins.mapM (compileJoin d) = .ok joins ∧ compileFilters d spec.filters [] = .ok filters ∧
      spec.groupBy.mapM d.quote = .ok groups ∧ spec.orderBy.mapM (compileOrder d) = .ok orders ∧
      q.statement = "SELECT " ++ d.top spec.limit ++ ", ".intercalate columns ++ " FROM " ++ source ++
        String.join joins ++ listed " WHERE " " AND " filters.1 ++ listed " GROUP BY " ", " groups ++
        listed " ORDER BY " ", " orders ++ d.limitClause spec.limit ∧
      q.parameters = filters.2 := by
  unfold compile at h
  split at h
  · cases h
  obtain ⟨columns, hcolumns, h⟩ := bind_ok h
  obtain ⟨source, hsource, h⟩ := bind_ok h
  obtain ⟨joins, hjoins, h⟩ := bind_ok h
  obtain ⟨filters, hfilters, h⟩ := bind_ok h
  obtain ⟨groups, hgroups, h⟩ := bind_ok h
  obtain ⟨orders, horders, h⟩ := bind_ok h
  cases h
  exact ⟨columns, source, joins, filters, groups, orders, hcolumns, hsource, hjoins, hfilters,
    hgroups, horders, rfl, rfl⟩

theorem compile_safe (spec : QuerySpec) (d : Dialect) (q : CompiledQuery)
    (h : compile spec d = .ok q) :
    Spelled d q.statement (List.range' 1 q.parameters.length) ∧
    q.parameters = spec.filters.flatMap QueryFilter.bound ∧
    (∃ (clauses : List String) (before after : String),
      q.statement = before ++ listed " WHERE " " AND " clauses ++ after ∧
      Spelled d before [] ∧ Binds d 0 spec.filters clauses ∧ Spelled d after []) ∧
    ∀ (filters : List QueryFilter) (q' : CompiledQuery),
      List.Forall₂ QueryFilter.SameShape spec.filters filters →
      compile { spec with filters := filters } d = .ok q' → q'.statement = q.statement := by
  obtain ⟨columns, source, joins, out, groups, orders, hcolumns, hsource, hjoins, hfilters, hgroups,
    horders, hstatement, hparameters⟩ := compile_ok h
  obtain ⟨hbound, hbinds⟩ := compileFilters_ok hfilters
  rw [List.nil_append, ← hparameters] at hbound
  have hcolumn : ∀ column ∈ columns, Spelled d column [] := fun column hmem => by
    obtain ⟨_, -, hquote⟩ := exists_of_mapM_ok hcolumns hmem
    exact quote_spelled hquote
  have hjoin : ∀ join ∈ joins, Spelled d join [] := fun join hmem => by
    obtain ⟨_, -, hcompiled⟩ := exists_of_mapM_ok hjoins hmem
    exact compileJoin_spelled hcompiled
  have hgroup : ∀ group ∈ groups, Spelled d group [] := fun group hmem => by
    obtain ⟨_, -, hquote⟩ := exists_of_mapM_ok hgroups hmem
    exact quote_spelled hquote
  have horder : ∀ order ∈ orders, Spelled d order [] := fun order hmem => by
    obtain ⟨_, -, hcompiled⟩ := exists_of_mapM_ok horders hmem
    exact compileOrder_spelled hcompiled
  have hbefore : Spelled d ("SELECT " ++ d.top spec.limit ++ ", ".intercalate columns ++ " FROM " ++
      source ++ String.join joins) [] := by
    have hselect : Spelled d "SELECT " [] := .fragment (by decide)
    exact ((((hselect.append_plain (top_spelled d _)).append_plain
      (.intercalate_plain (by decide) hcolumn)).append_plain (.fragment (by decide))).append_plain
      (quoteSource_spelled hsource)).append_plain (.join hjoin)
  have hafter : Spelled d (listed " GROUP BY " ", " groups ++ listed " ORDER BY " ", " orders ++
      d.limitClause spec.limit) [] :=
    ((Spelled.listed_plain (by decide) (by decide) hgroup).append_plain
      (.listed_plain (by decide) (by decide) horder)).append_plain (limitClause_spelled d _)
  have hsplit : q.statement = ("SELECT " ++ d.top spec.limit ++ ", ".intercalate columns ++ " FROM " ++
      source ++ String.join joins) ++ listed " WHERE " " AND " out.1 ++
      (listed " GROUP BY " ", " groups ++ listed " ORDER BY " ", " orders ++
        d.limitClause spec.limit) := by
    rw [hstatement]
    simp only [String.append_assoc]
  refine ⟨?_, hbound, ⟨out.1, _, _, hsplit, hbefore, hbinds, hafter⟩, ?_⟩
  · rw [hsplit, hbound]
    exact (hbefore.plain_append hbinds.listed).append_plain hafter
  · intro filters q' hshape h'
    obtain ⟨columns', source', joins', out', groups', orders', hcolumns', hsource', hjoins',
      hfilters', hgroups', horders', hstatement', -⟩ := compile_ok h'
    rw [hcolumns] at hcolumns'
    rw [hsource] at hsource'
    rw [hjoins] at hjoins'
    rw [hgroups] at hgroups'
    rw [horders] at horders'
    cases hcolumns'
    cases hsource'
    cases hjoins'
    cases hgroups'
    cases horders'
    rw [hstatement, hstatement', compileFilters_text hshape rfl hfilters hfilters']

def sampleSpec : QuerySpec where
  source := ⟨some "public", "orders"⟩
  columns := ["id", "orders.total"]
  joins := [⟨.left, ⟨none, "customers"⟩, "orders.customer_id", "customers.id"⟩]
  filters := [⟨"total", .greaterThan, .number (.posInt 100)⟩,
    ⟨"status", .in, .array [.string "paid", .string "$9"]⟩, ⟨"closed", .eq, .null⟩,
    ⟨"name", .startsWith, .string "'; --"⟩]
  groupBy := []
  orderBy := [⟨"total", .desc⟩]
  limit := some 50

def sampleStatement : String :=
  "SELECT \"id\", \"orders\".\"total\" FROM \"public\".\"orders\" " ++
    "LEFT JOIN \"customers\" ON \"orders\".\"customer_id\" = \"customers\".\"id\" " ++
    "WHERE \"total\" > $1 AND \"status\" IN ($2, $3) AND \"closed\" IS NULL AND " ++
    "\"name\" ILIKE $4 ORDER BY \"total\" DESC LIMIT 50"

theorem compile_safe_sample : ∃ q : CompiledQuery, compile sampleSpec .postgres = .ok q ∧
    q.statement = sampleStatement ∧ Spelled .postgres sampleStatement (List.range' 1 4) := by
  have hrun : (compile sampleSpec .postgres).toOption.any
      (fun q => q.statement = sampleStatement && q.parameters.length = 4) = true := by
    decide +kernel
  obtain ⟨q, hq, hfacts⟩ := (Option.any_eq_true _ _).mp hrun
  rw [Bool.and_eq_true, decide_eq_true_eq, decide_eq_true_eq] at hfacts
  have hok : compile sampleSpec .postgres = .ok q := by
    cases hc : compile sampleSpec .postgres with
    | error e =>
      rw [hc] at hq
      cases hq
    | ok out =>
      rw [hc] at hq
      cases hq
      rfl
  have hsafe := (compile_safe sampleSpec .postgres q hok).1
  rw [hfacts.1, hfacts.2] at hsafe
  exact ⟨q, hok, hfacts.1, hsafe⟩

end Jaiba.Server.SqlBuilder
