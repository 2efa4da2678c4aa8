import Jaiba.Mongo.Batching

/-!
# What an upsert selects

The key values of a record stand in the query of its operation, and the record
itself in the update. There the server reads some shapes otherwise than as
values: a document whose first key begins with `$`, a regular expression, and
an update whose keys begin with `$`.
-/

namespace Jaiba.Mongo
open Jaiba.Lib

/-! ### Meaning of queries and updates -/

def dollar (key : String) : Bool := key.toList.head? == some '$'

inductive Condition where
  | literal (value : Bson)
  | operators (expression : Document)
  | pattern (pattern options : String)

/-- How a query value is read. -/
def Bson.condition : Bson → Condition
  | .document fields =>
    match fields.head? with
    | some first => if dollar first.1 then .operators fields else .literal (.document fields)
    | none => .literal (.document fields)
  | .regularExpression pattern options => .pattern pattern options
  | value => .literal value

/-- Whether a value stands for itself in a query. -/
def Bson.Plain (value : Bson) : Prop := value.condition = .literal value

/-- What operators, patterns and operator updates do is left open; so is which of the two an
update is of whose keys only some begin with `$`. -/
structure Server where
  operators : Document → Option Bson → Prop
  pattern : String → String → Option Bson → Prop
  topLevel : String → Bson → Document → Prop
  operatorUpdate : Document → Prop
  modify : Document → Option Document → Option Document
  generatedId : Bson
  all_dollar : ∀ u : Document, u ≠ [] → (∀ field ∈ u, dollar field.1 = true) → operatorUpdate u
  no_dollar : ∀ u : Document, (∀ field ∈ u, dollar field.1 = false) → ¬ operatorUpdate u

namespace Server

variable (server : Server)

def meets (value : Option Bson) : Condition → Prop
  | .literal wanted => value = some wanted
  | .operators expression => server.operators expression value
  | .pattern pattern options => server.pattern pattern options value

def Selects (filter stored : Document) : Prop :=
  ∀ field ∈ filter, if dollar field.1 then server.topLevel field.1 field.2 stored
    else server.meets (valueAtPath stored field.1) field.2.condition

/-- The document after an update of the selected document, or of none. A replacement keeps
the `_id` of the document, and cannot change it. -/
def Leaves (u : Document) (old : Option Document) (result : Document) : Prop :=
  (server.operatorUpdate u → server.modify u old = some result) ∧
    (¬ server.operatorUpdate u →
      match u.get "_id" with
      | some id => result = u ∧ ∀ stored, old = some stored → stored.get "_id" = some id
      | none => result = ("_id", (old.bind fun d => d.get "_id").getD server.generatedId) :: u)

end Server

/-- An upsert of a record: it selects only documents with the key values of the record, and
the document that it leaves is the record, apart from an `_id` that the record has not. -/
structure Targets (server : Server) (p : PutMongoDb) (o : Operation) : Prop where
  selected : ∀ stored, server.Selects o.filter stored →
    ∀ field ∈ p.keyFields, valueAtPath stored field = valueAtPath o.document field
  left : ∀ old result, (∀ stored, old = some stored → server.Selects o.filter stored) →
    server.Leaves o.document old result →
      (∀ key, key ≠ "_id" → result.get key = o.document.get key) ∧
        ∀ id, o.document.get "_id" = some id → result.get "_id" = some id

/-- No field of the record begins with `$`, and each key value is plain or inside of one that is. -/
structure LiteralRecord (p : PutMongoDb) (document : Document) : Prop where
  fields : ∀ field ∈ document, dollar field.1 = false
  keys : ∀ field ∈ p.keyFields, ∃ outer ∈ p.keyFields, pathParts outer <+: pathParts field ∧
    ∀ value, valueAtPath document outer = some value → value.Plain

/-- The operation of a record. -/
def PutMongoDb.recordOperation (p : PutMongoDb) (crate : Crate) (index : ℕ) (record : Json) :
    Except FlowError Operation := do
  let document ← recordDocument crate record ("put_mongodb record " ++ toString index)
  p.operation crate index document

/-! ### Fields and paths -/

namespace Document

theorem get_cons (field : String × Bson) (d : Document) (key : String) :
    Document.get (field :: d) key = if key = field.1 then some field.2 else d.get key := by
  unfold Document.get
  rw [List.lookup_cons]
  by_cases h : key = field.1
  · rw [if_pos h, beq_iff_eq.mpr h]
  · rw [if_neg h, beq_eq_false_iff_ne.mpr h]

theorem get_of_mem {d : Document} {field : String × Bson} (h : field ∈ d) :
    ∃ value, d.get field.1 = some value := by
  induction d with
  | nil => cases h
  | cons first d ih =>
    rw [get_cons]
    by_cases heq : field.1 = first.1
    · rw [if_pos heq]
      exact ⟨first.2, rfl⟩
    · rw [if_neg heq]
      refine ih ((List.mem_cons.mp h).resolve_left ?_)
      rintro rfl
      exact heq rfl

theorem mem_of_get {d : Document} {key : String} {value : Bson} (h : d.get key = some value) :
    (key, value) ∈ d := by
  induction d with
  | nil => cases h
  | cons first d ih =>
    rw [get_cons] at h
    split at h
    next heq =>
      cases h
      rw [heq]
      exact List.mem_cons_self
    · exact List.mem_cons_of_mem _ (ih h)

theorem get_append {d : Document} {key : String} {value : Bson} (h : d.get key = some value)
    (more : Document) : Document.get (d ++ more) key = some value := by
  induction d with
  | nil => cases h
  | cons first d ih =>
    rw [List.cons_append, get_cons]
    rw [get_cons] at h
    split
    next heq => rwa [if_pos heq] at h
    next hne =>
      rw [if_neg hne] at h
      exact ih h

/-- A value changed in place. -/
def change (d : Document) (key : String) (f : Bson → Bson) : Document :=
  d.map fun field => if field.1 = key then (field.1, f field.2) else field

theorem get_change (d : Document) (key : String) (f : Bson → Bson) (k : String) :
    (d.change key f).get k = if k = key then (d.get key).map f else d.get k := by
  induction d with
  | nil => split <;> rfl
  | cons first d ih =>
    have hcons : Document.change (first :: d) key f =
        (if first.1 = key then (first.1, f first.2) else first) :: Document.change d key f := rfl
    rw [hcons, get_cons, get_cons, get_cons, ih]
    by_cases hfirst : first.1 = key
    · rw [if_pos hfirst]
      by_cases hk : k = key
      · rw [if_pos (hk.trans hfirst.symm), if_pos hk, if_pos hfirst.symm]
        rfl
      · have hne : ¬ k = first.1 := fun h => hk (h.trans hfirst)
        rw [if_neg hne, if_neg hk, if_neg hk, if_neg hne]
    · rw [if_neg hfirst]
      by_cases hk : k = key
      · have hne : ¬ k = first.1 := fun h => hfirst (h.symm.trans hk)
        have hne' : ¬ key = first.1 := fun h => hfirst h.symm
        rw [if_neg hne, if_pos hk, if_pos hk, if_neg hne']
      · rw [if_neg hk, if_neg hk]

/-- The value at a path changed, where documents lead to it. -/
def changeAt (f : Bson → Bson) : List String → Document → Document
  | [], d => d
  | [key], d => d.change key f
  | key :: part :: rest, d => d.change key fun value =>
    match value.asDocument with
    | some inner => .document (changeAt f (part :: rest) inner)
    | none => value

theorem atParts_append {d : Document} {path rest : List String} (hpath : path ≠ []) (hrest : rest ≠ []) :
    d.atParts (path ++ rest) = ((d.atParts path).bind Bson.asDocument).bind fun inner => inner.atParts rest := by
  induction path generalizing d with
  | nil => exact absurd rfl hpath
  | cons key path ih =>
    cases path with
    | nil =>
      obtain ⟨part, more, rfl⟩ := List.exists_cons_of_ne_nil hrest
      rw [List.cons_append, List.nil_append, atParts, atParts]
      cases (d.get key).bind Bson.asDocument with
      | none => rfl
      | some inner => rfl
    | cons part path =>
      rw [List.cons_append, List.cons_append, atParts, atParts]
      cases (d.get key).bind Bson.asDocument with
      | none => rfl
      | some inner => exact ih (List.cons_ne_nil _ _)

theorem atParts_cons {d : Document} {key part : String} {rest : List String} {value : Bson} :
    d.atParts (key :: part :: rest) = some value ↔
      ∃ inner, d.get key = some (.document inner) ∧ Document.atParts inner (part :: rest) = some value := by
  rw [atParts]
  cases hkey : d.get key with
  | none =>
    refine ⟨fun h => (by cases h), ?_⟩
    rintro ⟨inner, h, -⟩
    cases h
  | some found =>
    cases found with
    | document inner =>
      refine ⟨fun h => ⟨inner, rfl, h⟩, ?_⟩
      rintro ⟨inner', h, hvalue⟩
      cases h
      exact hvalue
    | _ =>
      refine ⟨fun h => (by cases h), ?_⟩
      rintro ⟨inner, h, -⟩
      cases h

theorem atParts_changeAt_self {f : Bson → Bson} {path : List String} {d : Document} {value : Bson}
    (h : d.atParts path = some value) : (d.changeAt f path).atParts path = some (f value) := by
  induction path generalizing d with
  | nil => cases h
  | cons key path ih =>
    cases path with
    | nil =>
      have hget : d.get key = some value := h
      change (d.change key f).get key = some (f value)
      rw [get_change, if_pos rfl, hget]
      rfl
    | cons part path =>
      obtain ⟨inner, hkey, hvalue⟩ := atParts_cons.mp h
      refine atParts_cons.mpr ⟨Document.changeAt f (part :: path) inner, ?_, ih hvalue⟩
      rw [changeAt, get_change, if_pos rfl, hkey]
      rfl

/-- A change that keeps what is inside of a document is seen only by the paths that lead to it. -/
theorem atParts_changeAt_other {f : Bson → Bson}
    (hf : ∀ inner, ∃ inner', f (.document inner) = .document inner' ∧
      ∀ rest v, Document.atParts inner rest = some v → Document.atParts inner' rest = some v)
    {path other : List String} {d : Document} {value : Bson} (hother : ¬ other <+: path)
    (h : d.atParts other = some value) : (d.changeAt f path).atParts other = some value := by
  induction path generalizing d other with
  | nil => exact h
  | cons key path ih =>
    cases other with
    | nil => exact absurd List.nil_prefix hother
    | cons k other =>
      by_cases hk : k = key
      · subst hk
        cases other with
        | nil => exact absurd (List.cons_prefix_cons.mpr ⟨rfl, List.nil_prefix⟩) hother
        | cons part other =>
          obtain ⟨inner, hkey, hvalue⟩ := atParts_cons.mp h
          cases path with
          | nil =>
            obtain ⟨inner', hinner, hkept⟩ := hf inner
            refine atParts_cons.mpr ⟨inner', ?_, hkept _ _ hvalue⟩
            rw [changeAt, get_change, if_pos rfl, hkey]
            exact congrArg some hinner
          | cons next path =>
            have hdeeper : ¬ part :: other <+: next :: path := fun hp =>
              hother (List.cons_prefix_cons.mpr ⟨rfl, hp⟩)
            refine atParts_cons.mpr ⟨Document.changeAt f (next :: path) inner, ?_, ih hdeeper hvalue⟩
            rw [changeAt, get_change, if_pos rfl, hkey]
            rfl
      · have hsame : (d.changeAt f (key :: path)).get k = d.get k := by
          cases path with
          | nil => rw [changeAt, get_change, if_neg hk]
          | cons next path => rw [changeAt, get_change, if_neg hk]
        cases other with
        | nil => exact hsame.trans h
        | cons part other =>
          obtain ⟨inner, hkey, hvalue⟩ := atParts_cons.mp h
          exact atParts_cons.mpr ⟨inner, hsame.trans hkey, hvalue⟩

end Document

/-! ### Filters -/

theorem mem_insert_of_value {d : Document} {key : String} {value : Bson}
    {field : String × Bson} (h : field ∈ d.insert key value) :
    field = (key, value) ∨ field ∈ d := by
  unfold Document.insert at h
  split at h
  · obtain ⟨old, hold, rfl⟩ := List.mem_map.mp h
    split
    · exact .inl rfl
    · exact .inr hold
  · rcases List.mem_append.mp h with h | h
    · exact .inr h
    · exact .inl (List.mem_singleton.mp h)

/-- A key keeps an entry when another is inserted. -/
theorem exists_mem_insert {d : Document} {key : String} {value : Bson} {other : String}
    (h : other = key ∨ ∃ v, (other, v) ∈ d) : ∃ v, (other, v) ∈ d.insert key value := by
  unfold Document.insert
  split
  next hsome =>
    obtain ⟨old, hold⟩ := Option.isSome_iff_exists.mp hsome
    have hkey : (key, old) ∈ d := Document.mem_of_get hold
    have hmap : ∀ v, (other, v) ∈ d → ∃ v, (other, v) ∈
        d.map fun field => if field.1 = key then (key, value) else field := by
      intro v hv
      by_cases heq : other = key
      · refine ⟨value, List.mem_map.mpr ⟨(other, v), hv, ?_⟩⟩
        rw [if_pos heq, heq]
      · refine ⟨v, List.mem_map.mpr ⟨(other, v), hv, ?_⟩⟩
        rw [if_neg heq]
    rcases h with rfl | ⟨v, hv⟩
    · exact hmap old hkey
    · exact hmap v hv
  · rcases h with rfl | ⟨v, hv⟩
    · exact ⟨value, List.mem_append_right _ List.mem_cons_self⟩
    · exact ⟨v, List.mem_append_left _ hv⟩

namespace PutMongoDb

variable {p : PutMongoDb} {crate : Crate}

theorem addKeys_ok {document : Document} {index : ℕ} {keys : List String} {start filter : Document}
    (h : keys.foldlM (addKey document index) start = .ok filter) :
    (∀ field ∈ filter, field ∈ start ∨
        field.1 ∈ keys ∧ valueAtPath document field.1 = some field.2) ∧
      ∀ key, (key ∈ keys ∨ ∃ value, (key, value) ∈ start) → ∃ value, (key, value) ∈ filter := by
  induction keys generalizing start with
  | nil =>
    cases h
    refine ⟨fun field hfield => .inl hfield, fun key hkey => ?_⟩
    rcases hkey with hkey | hkey
    · cases hkey
    · exact hkey
  | cons first keys ih =>
    rw [List.foldlM_cons] at h
    obtain ⟨next, hnext, h⟩ := bind_ok h
    unfold addKey at hnext
    split at hnext
    · cases hnext
    next value hvalue =>
      cases hnext
      obtain ⟨hentries, hkeys⟩ := ih h
      refine ⟨fun field hfield => ?_, fun key hkey => ?_⟩
      · rcases hentries field hfield with hold | ⟨hmem, hat⟩
        · rcases mem_insert_of_value hold with rfl | hold
          · exact .inr ⟨List.mem_cons_self, hvalue⟩
          · exact .inl hold
        · exact .inr ⟨List.mem_cons_of_mem _ hmem, hat⟩
      · refine hkeys key ?_
        rcases hkey with hkey | hkey
        · rcases List.mem_cons.mp hkey with rfl | hkey
          · exact .inr (exists_mem_insert (.inl rfl))
          · exact .inl hkey
        · exact .inr (exists_mem_insert (.inr hkey))

/-- The filter has the value of each key field under its path, and nothing else. -/
theorem upsertFilter_ok {document filter : Document} {index : ℕ}
    (h : p.upsertFilter document index = .ok filter) :
    (∀ field ∈ filter, field.1 ∈ p.keyFields ∧ valueAtPath document field.1 = some field.2) ∧
      ∀ key ∈ p.keyFields, ∃ value, (key, value) ∈ filter ∧ valueAtPath document key = some value := by
  obtain ⟨hentries, hkeys⟩ := addKeys_ok h
  have hfield : ∀ field ∈ filter, field.1 ∈ p.keyFields ∧
      valueAtPath document field.1 = some field.2 := by
    intro field hfield
    exact (hentries field hfield).resolve_left List.not_mem_nil
  refine ⟨hfield, fun key hkey => ?_⟩
  obtain ⟨value, hvalue⟩ := hkeys key (.inl hkey)
  exact ⟨value, hvalue, (hfield (key, value) hvalue).2⟩

end PutMongoDb

/-! ### Names with a dollar -/

theorem pathParts_cons (c : Char) (rest : List Char) (hc : c ≠ '.') : ∃ part parts,
    pathParts (String.ofList (c :: rest)) = String.ofList (c :: part) :: parts := by
  have hcons : (c :: rest).splitOn '.' = (rest.splitOn '.').modifyHead (List.cons c) := by
    rw [List.splitOn, List.splitOnP_cons_eq_if_modifyHead, if_neg]
    · rfl
    · exact fun h => hc (beq_iff_eq.mp h)
  have hne : rest.splitOn '.' ≠ [] := List.splitOnP_ne_nil _ rest
  obtain ⟨part, parts, hparts⟩ := List.exists_cons_of_ne_nil hne
  refine ⟨part, parts.map String.ofList, ?_⟩
  rw [pathParts, String.toList_ofList, hcons, hparts]
  rfl

theorem atParts_head {d : Document} {key : String} {parts : List String} {value : Bson}
    (h : d.atParts (key :: parts) = some value) : ∃ v, d.get key = some v := by
  cases parts with
  | nil => exact ⟨value, h⟩
  | cons part parts =>
    obtain ⟨inner, hkey, -⟩ := Document.atParts_cons.mp h
    exact ⟨_, hkey⟩

/-- A path that begins with `$` begins with a key that does. -/
theorem dollar_path {d : Document} {path : String} {value : Bson} (h : valueAtPath d path = some value)
    (hpath : dollar path = true) : ∃ field ∈ d, dollar field.1 = true := by
  unfold dollar at hpath
  have hhead : path.toList.head? = some '$' := beq_iff_eq.mp hpath
  obtain ⟨rest, hrest⟩ := List.head?_eq_some_iff.mp hhead
  have hlist : path = String.ofList ('$' :: rest) := by
    rw [← hrest, String.ofList_toList]
  obtain ⟨part, parts, hparts⟩ := pathParts_cons '$' rest (by decide)
  rw [valueAtPath, hlist, hparts] at h
  obtain ⟨v, hv⟩ := atParts_head h
  refine ⟨_, Document.mem_of_get hv, ?_⟩
  rw [dollar, String.toList_ofList]
  rfl

/-! ### Literal records -/

theorem pathParts_ne_nil (path : String) : pathParts path ≠ [] := by
  intro h
  exact List.splitOnP_ne_nil _ path.toList (List.map_eq_nil_iff.mp h)

theorem condition_of_plain {value : Bson} (h : value.Plain) : value.condition = .literal value := h

section literal
variable {p : PutMongoDb} {crate : Crate} {index : ℕ} {document : Document} {o : Operation}

theorem operation_filter (h : p.operation crate index document = .ok o) :
    p.upsertFilter document index = .ok o.filter := by
  obtain ⟨filter, hfilter, h⟩ := bind_ok h
  obtain ⟨_, _, h⟩ := bind_ok h
  obtain ⟨_, _, h⟩ := bind_ok h
  cases h
  exact hfilter

/-- A stored document that is selected has the values of the literal record. -/
theorem selected_of_literal {server : Server} (hliteral : LiteralRecord p document)
    (h : p.operation crate index document = .ok o) {stored : Document}
    (hselects : server.Selects o.filter stored) {field : String} (hfield : field ∈ p.keyFields) :
    valueAtPath stored field = valueAtPath document field := by
  obtain ⟨outer, houter, ⟨rest, hrest⟩, hplain⟩ := hliteral.keys field hfield
  obtain ⟨value, hmem, hvalue⟩ := (PutMongoDb.upsertFilter_ok (operation_filter h)).2 outer houter
  have hname : ¬ dollar outer = true := by
    intro hdollar
    obtain ⟨key, hkey, hbad⟩ := dollar_path hvalue hdollar
    rw [hliteral.fields key hkey] at hbad
    cases hbad
  have hmeets := hselects (outer, value) hmem
  rw [if_neg hname, condition_of_plain (hplain value hvalue)] at hmeets
  have hstored : valueAtPath stored outer = some value := hmeets
  unfold valueAtPath at hstored hvalue ⊢
  rw [← hrest]
  by_cases hnil : rest = []
  · rw [hnil, List.append_nil, hstored, hvalue]
  · rw [Document.atParts_append (pathParts_ne_nil outer) hnil,
      Document.atParts_append (pathParts_ne_nil outer) hnil, hstored, hvalue]

/-- A literal record replaces a document. -/
theorem left_of_literal {server : Server} (hliteral : LiteralRecord p document)
    {old : Option Document} {result : Document} (h : server.Leaves document old result) :
    (∀ key, key ≠ "_id" → result.get key = document.get key) ∧
      ∀ id, document.get "_id" = some id → result.get "_id" = some id := by
  have hreplaced := h.2 (server.no_dollar document hliteral.fields)
  cases hid : document.get "_id" with
  | some id =>
    rw [hid] at hreplaced
    rw [hreplaced.1]
    refine ⟨fun _ _ => rfl, fun id' h' => ?_⟩
    rw [hid]
    exact h'
  | none =>
    rw [hid] at hreplaced
    refine ⟨fun key hkey => ?_, fun id' h' => (by cases h')⟩
    rw [hreplaced, Document.get_cons, if_neg hkey]

end literal

/-! ### Other records -/

/-- A server whose operators and patterns accept everything. -/
def permissive : Server where
  operators := fun _ _ => True
  pattern := fun _ _ _ => True
  topLevel := fun _ _ _ => True
  operatorUpdate := fun u => ∃ field ∈ u, dollar field.1 = true
  modify := fun _ _ => some []
  generatedId := .null
  all_dollar := by
    intro u hne hall
    obtain ⟨field, rest, rfl⟩ := List.exists_cons_of_ne_nil hne
    exact ⟨field, List.mem_cons_self, hall field List.mem_cons_self⟩
  no_dollar := by
    rintro u hno ⟨field, hfield, hdollar⟩
    rw [hno field hfield] at hdollar
    cases hdollar

/-- A value that is not its own any more, with what was inside of it. -/
def altered : Bson → Bson
  | .document fields => .document (fields ++ [("", .null)])
  | _ => .null

theorem atParts_append_fields {d : Document} {path : List String} {value : Bson}
    (h : d.atParts path = some value) (more : Document) :
    Document.atParts (d ++ more) path = some value := by
  cases path with
  | nil => cases h
  | cons key path =>
    cases path with
    | nil => exact Document.get_append h more
    | cons part path =>
      obtain ⟨inner, hkey, hvalue⟩ := Document.atParts_cons.mp h
      exact Document.atParts_cons.mpr ⟨inner, Document.get_append hkey more, hvalue⟩

theorem condition_cases (value : Bson) : value.Plain ∨
    (∃ fields, value = .document fields ∧ value.condition = .operators fields) ∨
      ∃ pattern options, value = .regularExpression pattern options := by
  cases value with
  | document fields =>
    unfold Bson.Plain Bson.condition
    cases fields with
    | nil => exact .inl rfl
    | cons first rest =>
      dsimp only [List.head?_cons]
      split
      · exact .inr (.inl ⟨_, rfl, rfl⟩)
      · exact .inl rfl
  | regularExpression pattern options => exact .inr (.inr ⟨pattern, options, rfl⟩)
  | _ => exact .inl rfl

theorem permissive_meets {value : Bson} (h : ¬ value.Plain) (found : Option Bson) :
    permissive.meets found value.condition := by
  rcases condition_cases value with hplain | ⟨fields, -, hcondition⟩ | ⟨pattern, options, rfl⟩
  · exact absurd hplain h
  · rw [hcondition]
    exact trivial
  · exact trivial

theorem altered_ne {value : Bson} (h : ¬ value.Plain) : altered value ≠ value := by
  rcases condition_cases value with hplain | ⟨fields, rfl, -⟩ | ⟨pattern, options, rfl⟩
  · exact absurd hplain h
  · intro heq
    have hfields : fields ++ [("", Bson.null)] = fields := Bson.document.inj heq
    have hlength := congrArg List.length hfields
    rw [List.length_append, List.length_singleton] at hlength
    omega
  · intro heq
    cases heq

section other
variable {p : PutMongoDb} {crate : Crate} {index : ℕ} {document : Document} {o : Operation}

theorem fields_of_targets (h : p.operation crate index document = .ok o)
    (htargets : Targets permissive p o) : ∀ field ∈ document, dollar field.1 = false := by
  intro field hfield
  cases hdollar : dollar field.1 with
  | false => rfl
  | true =>
    have hdocument : o.document = document := PutMongoDb.operation_document h
    have hleaves : permissive.Leaves o.document none [] := by
      rw [hdocument]
      refine ⟨fun _ => rfl, fun hreplace => ?_⟩
      exact absurd ⟨field, hfield, hdollar⟩ hreplace
    have hkept := (htargets.left none [] (fun stored hnone => (by cases hnone)) hleaves).1 field.1 (by
      intro hid
      rw [hid] at hdollar
      exact absurd hdollar (by decide))
    obtain ⟨value, hvalue⟩ := Document.get_of_mem hfield
    rw [hdocument, hvalue] at hkept
    cases hkept

theorem keys_of_targets (h : p.operation crate index document = .ok o)
    (htargets : Targets permissive p o) {field : String} (hfield : field ∈ p.keyFields) :
    ∃ outer ∈ p.keyFields, pathParts outer <+: pathParts field ∧
      ∀ value, valueAtPath document outer = some value → value.Plain := by
  by_contra hno
  have hloose : ∀ outer ∈ p.keyFields, pathParts outer <+: pathParts field →
      ∀ value, valueAtPath document outer = some value → ¬ value.Plain := by
    intro outer houter hfront value hvalue hplain
    refine hno ⟨outer, houter, hfront, fun other hother => ?_⟩
    rw [hvalue] at hother
    cases hother
    exact hplain
  obtain ⟨hentries, hkeys⟩ := PutMongoDb.upsertFilter_ok (operation_filter h)
  obtain ⟨value, -, hvalue⟩ := hkeys field hfield
  have hbad := hloose field hfield (List.prefix_refl _) value hvalue
  have hdocument : o.document = document := PutMongoDb.operation_document h
  have hstored : permissive.Selects o.filter (document.changeAt altered (pathParts field)) := by
    intro entry hentry
    split
    · exact trivial
    · obtain ⟨hkey, hat⟩ := hentries entry hentry
      by_cases hplain : entry.2.Plain
      · have hapart : ¬ pathParts entry.1 <+: pathParts field := fun hfront =>
          hloose entry.1 hkey hfront entry.2 hat hplain
        rw [condition_of_plain hplain]
        refine Document.atParts_changeAt_other (fun inner => ?_) hapart hat
        exact ⟨inner ++ [("", .null)], rfl, fun rest v hv => atParts_append_fields hv _⟩
      · exact permissive_meets hplain _
  have hsame := htargets.selected _ hstored field hfield
  rw [hdocument, hvalue, valueAtPath, Document.atParts_changeAt_self hvalue] at hsame
  exact altered_ne hbad (Option.some.inj hsame)

end other

/-- An upsert targets exactly the key of its record, whatever the server's operators do, if
and only if the record is literal. -/
theorem upsert_targets_iff (p : PutMongoDb) (crate : Crate) (index : ℕ) (record : Json) (o : Operation)
    (haccepted : p.recordOperation crate index record = .ok o) :
    (∀ server, Targets server p o) ↔ LiteralRecord p o.document := by
  obtain ⟨document, -, hoperation⟩ := bind_ok haccepted
  have hdocument : o.document = document := PutMongoDb.operation_document hoperation
  constructor
  · intro htargets
    rw [hdocument]
    exact ⟨fields_of_targets hoperation (htargets permissive),
      fun field hfield => keys_of_targets hoperation (htargets permissive) hfield⟩
  · intro hliteral server
    rw [hdocument] at hliteral
    refine ⟨fun stored hselects field hfield => ?_, fun old result _ hleaves => ?_⟩
    · rw [hdocument]
      exact selected_of_literal hliteral hoperation hselects hfield
    · rw [hdocument] at hleaves ⊢
      exact left_of_literal hliteral hleaves

/-- An integer as a key. -/
theorem upsert_targets_iff_integer :
    LiteralRecord (sampleWriter 1000 (by decide)) sampleOperation.document ∧
      ∀ server, Targets server (sampleWriter 1000 (by decide)) sampleOperation := by
  have hliteral : LiteralRecord (sampleWriter 1000 (by decide)) sampleOperation.document := by
    refine ⟨fun field hfield => ?_, fun field hfield => ?_⟩
    · rw [List.mem_singleton.mp hfield]
      rfl
    · refine ⟨field, hfield, List.prefix_refl _, fun value hvalue => ?_⟩
      rw [List.mem_singleton.mp hfield] at hvalue
      cases hvalue
      rfl
  exact ⟨hliteral, (upsert_targets_iff (sampleWriter 1000 (by decide)) sampleCrate 0 sampleRecord
    sampleOperation rfl).mpr hliteral⟩

/-! ### One operator -/

/-- `$gt` on strings; an update is read by its first key. -/
def sampleServer : Server where
  operators := fun expression value => ∃ low high, expression = [("$gt", .string low)] ∧
    value = some (.string high) ∧ low < high
  pattern := fun _ _ _ => False
  topLevel := fun _ _ _ => False
  operatorUpdate := fun u => ∃ field, u.head? = some field ∧ dollar field.1 = true
  modify := fun _ _ => none
  generatedId := .objectId "65f1a2b3c4d5e6f708192a3b"
  all_dollar := by
    intro u hne hall
    obtain ⟨field, rest, rfl⟩ := List.exists_cons_of_ne_nil hne
    exact ⟨field, rfl, hall field List.mem_cons_self⟩
  no_dollar := by
    rintro u hno ⟨field, hfield, hdollar⟩
    rw [hno field (List.mem_of_head? hfield)] at hdollar
    cases hdollar

def emailWriter : PutMongoDb where
  connection := "mongo"
  collection := "customers"
  mode := .upsert
  keyFields := ["email"]
  batchSize := 1000
  ordered := true
  batchSize_pos := by decide
  keyed := fun _ => List.cons_ne_nil _ _

def injectedKey : Bson := .document [("$gt", .string "")]

def injectedRecord : Json :=
  .object [("email", .object [("$gt", .string "")]), ("role", .string "admin")]

def injectedOperation : Operation :=
  ⟨[("email", injectedKey)], [("email", injectedKey), ("role", .string "admin")]⟩

/-- A record whose `email` is an operator selects the document of anyone. -/
theorem operator_key_selects_others :
    ¬ ∀ (server : Server) (p : PutMongoDb) (crate : Crate) (index : ℕ) (record : Json) (o : Operation),
      p.recordOperation crate index record = .ok o → Targets server p o := by
  intro hclaim
  have htargets := hclaim sampleServer emailWriter sampleCrate 0 injectedRecord injectedOperation rfl
  have hselects : sampleServer.Selects injectedOperation.filter [("email", .string "ana@example.org")] := by
    intro field hfield
    rw [List.mem_singleton.mp hfield]
    exact ⟨"", "ana@example.org", rfl, rfl, by decide⟩
  have hsame := htargets.selected _ hselects "email" List.mem_cons_self
  cases hsame

end Jaiba.Mongo
