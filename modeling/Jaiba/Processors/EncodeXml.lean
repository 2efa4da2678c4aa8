import Jaiba.Error
import Jaiba.Lib.Bytes
import Jaiba.Lib.Except
import Jaiba.Lib.Xml
import Jaiba.Packet

/-!
# XML documents (`encode_xml` in `processors/encode.rs`)

The records become elements of a root element, their fields elements of them
with the escaped text of the value.
-/

namespace Jaiba.Processors
open Jaiba.Lib Jaiba.Lib.Xml

/-- `validate_xml_name`. -/
def isSupportedName (name : String) : Bool :=
  !name.toList.isEmpty && name.toList.all fun c => c.isAlphanum || ['_', '-', '.'].contains c

def validateXmlName (name : String) : Except FlowError Unit :=
  if isSupportedName name then .ok ()
  else .error (.configuration ("'" ++ name ++ "' is not a supported XML element name"))

/-- `Format::Xml`, which only `Encode::xml` makes. -/
structure EncodeXml where
  root : String
  item : String
  root_supported : isSupportedName root = true
  item_supported : isSupportedName item = true

/-- The options, after the defaults of the parser. -/
structure XmlConfig where
  root : String := "records"
  item : String := "record"

/-- `Encode::xml`. -/
def EncodeXml.fromConfig (config : XmlConfig) : Except FlowError EncodeXml :=
  if hroot : isSupportedName config.root = true then
    if hitem : isSupportedName config.item = true then .ok ⟨config.root, config.item, hroot, hitem⟩
    else .error (.configuration ("'" ++ config.item ++ "' is not a supported XML element name"))
  else .error (.configuration ("'" ++ config.root ++ "' is not a supported XML element name"))

/-- `scalar_text`. -/
def scalarText : Option Json → String
  | none | some .null => ""
  | some (.string text) => text
  | some value => value.render

def replaceChar (c : Char) (replacement : List Char) (text : List Char) : List Char :=
  text.flatMap fun d => if d = c then replacement else [d]

def escapeXml (value : List Char) : List Char :=
  replaceChar '\'' ['&', 'a', 'p', 'o', 's', ';']
    (replaceChar '"' ['&', 'q', 'u', 'o', 't', ';']
      (replaceChar '>' ['&', 'g', 't', ';']
        (replaceChar '<' ['&', 'l', 't', ';'] (replaceChar '&' ['&', 'a', 'm', 'p', ';'] value))))

/-- The loop over the fields of a record. -/
def encodeFields : List (String × Json) → List Char → Except FlowError (List Char)
  | [], output => .ok output
  | (name, value) :: fields, output => do
    validateXmlName name
    encodeFields fields (output ++ ('<' :: (name.toList ++ ['>']) ++
      (escapeXml (scalarText (some value)).toList ++ '<' :: '/' :: (name.toList ++ ['>']))))

/-- The loop over the records. -/
def encodeRecords (processorId item : String) : List Json → List Char → Except FlowError (List Char)
  | [], output => .ok output
  | .object fields :: records, output => do
    let output ← encodeFields fields (output ++ '<' :: (item.toList ++ ['>']))
    encodeRecords processorId item records (output ++ '<' :: '/' :: (item.toList ++ ['>']))
  | _ :: _, _ => .error (.processor processorId "encode_xml only accepts object records")

/-- `<?xml version="1.0" encoding="UTF-8"?>` -/
def declaration : List Char :=
  ['<', '?', 'x', 'm', 'l', ' ', 'v', 'e', 'r', 's', 'i', 'o', 'n', '=', '"', '1', '.', '0', '"', ' ',
    'e', 'n', 'c', 'o', 'd', 'i', 'n', 'g', '=', '"', 'U', 'T', 'F', '-', '8', '"', '?', '>']

def encodeXml (p : EncodeXml) (processorId : String) (records : List Json) : Except FlowError Bytes := do
  let output ← encodeRecords processorId p.item records (declaration ++ '<' :: (p.root.toList ++ ['>']))
  return utf8 (String.ofList (output ++ '<' :: '/' :: (p.root.toList ++ ['>'])))

/-- The packet that goes to the output. -/
def EncodeXml.execute (p : EncodeXml) (processorId : String) (packet : DataPacket) : Except FlowError DataPacket :=
  match packet.records with
  | .error message => .error (.processor processorId message)
  | .ok records => (encodeXml p processorId records).map fun bytes =>
      { packet with content := .encoded "application/xml" bytes }

/-! ### The document -/

/-- The names and texts of the fields of a record. -/
def rowOf : Json → List (List Char × List Char)
  | .object fields => fields.map fun field => (field.1.toList, (scalarText (some field.2)).toList)
  | _ => []

def leaf (field : List Char × List Char) : List Char := tagged field.1 (escapeXml field.2)

def rowText (item : List Char) (row : List (List Char × List Char)) : List Char := tagged item (row.flatMap leaf)

def document (root item : List Char) (rows : List (List (List Char × List Char))) : List Char :=
  declaration ++ tagged root (rows.flatMap (rowText item))

theorem validateXmlName_ok {name : String} {u : Unit} (h : validateXmlName name = .ok u) : isSupportedName name = true := by
  rw [validateXmlName] at h
  split at h
  next hname => exact hname
  next => cases h

theorem isToken_of_supported {name : String} (h : isSupportedName name = true) : IsToken name.toList := by
  rw [isSupportedName, Bool.and_eq_true, Bool.not_eq_true', List.all_eq_true] at h
  refine ⟨?_, fun c hc => ?_⟩
  · rw [← List.isEmpty_eq_false_iff]
    exact h.1
  · have hletter := h.2 c hc
    rw [Bool.or_eq_true, List.contains_iff_mem] at hletter
    rw [isNameChar, isNameStart]
    rcases hletter with hletter | hmark
    · rw [Char.isAlphanum, Bool.or_eq_true] at hletter
      rcases hletter with hletter | hletter <;> simp [hletter]
    · simp only [List.mem_cons, List.not_mem_nil, or_false] at hmark
      rcases hmark with rfl | rfl | rfl <;> decide

theorem encodeFields_ok {fields : List (String × Json)} {output out : List Char}
    (h : encodeFields fields output = .ok out) :
    (∀ field ∈ fields, isSupportedName field.1 = true) ∧ out = output ++ (rowOf (.object fields)).flatMap leaf := by
  induction fields generalizing output with
  | nil =>
    cases h
    refine ⟨fun field hfield => absurd hfield List.not_mem_nil, ?_⟩
    rw [rowOf, List.map_nil, List.flatMap_nil, List.append_nil]
  | cons field fields ih =>
    obtain ⟨u, hname, h⟩ := bind_ok h
    obtain ⟨hnames, hout⟩ := ih h
    refine ⟨List.forall_mem_cons.mpr ⟨validateXmlName_ok hname, hnames⟩, ?_⟩
    rw [hout, rowOf, rowOf, List.map_cons, List.flatMap_cons, List.append_assoc]
    rfl

theorem encodeRecords_ok {processorId item : String} {records : List Json} {output out : List Char}
    (h : encodeRecords processorId item records output = .ok out) :
    (∀ record ∈ records, ∀ field ∈ rowOf record, IsToken field.1) ∧
      out = output ++ (records.map rowOf).flatMap (rowText item.toList) := by
  induction records generalizing output with
  | nil =>
    cases h
    refine ⟨fun record hrecord => absurd hrecord List.not_mem_nil, ?_⟩
    rw [List.map_nil, List.flatMap_nil, List.append_nil]
  | cons record records ih =>
    cases record with
    | object fields =>
      obtain ⟨middle, hfields, h⟩ := bind_ok h
      obtain ⟨hnames, hmiddle⟩ := encodeFields_ok hfields
      obtain ⟨hrest, hout⟩ := ih h
      refine ⟨List.forall_mem_cons.mpr ⟨fun field hfield => ?_, hrest⟩, ?_⟩
      · obtain ⟨e, he, rfl⟩ := List.mem_map.mp hfield
        exact isToken_of_supported (hnames e he)
      · rw [hout, hmiddle, List.map_cons, List.flatMap_cons, rowText, tagged]
        simp only [List.append_assoc, List.cons_append]
    | _ => cases h

/-- What comes out is the document of the rows. -/
theorem encodeXml_ok {p : EncodeXml} {processorId : String} {records : List Json} {bytes : Bytes}
    (h : encodeXml p processorId records = .ok bytes) :
    (∀ row ∈ records.map rowOf, ∀ field ∈ row, IsToken field.1) ∧
      bytes = utf8 (String.ofList (document p.root.toList p.item.toList (records.map rowOf))) := by
  obtain ⟨output, houtput, h⟩ := bind_ok h
  cases h
  obtain ⟨hnames, hout⟩ := encodeRecords_ok houtput
  refine ⟨fun row hrow => ?_, ?_⟩
  · obtain ⟨record, hrecord, rfl⟩ := List.mem_map.mp hrow
    exact hnames record hrecord
  · rw [hout, document, tagged]
    simp only [List.append_assoc, List.cons_append]

/-! ### Escaped text -/

def escapeChar (c : Char) : List Char :=
  if c = '&' then ['&', 'a', 'm', 'p', ';']
  else if c = '<' then ['&', 'l', 't', ';']
  else if c = '>' then ['&', 'g', 't', ';']
  else if c = '"' then ['&', 'q', 'u', 'o', 't', ';']
  else if c = '\'' then ['&', 'a', 'p', 'o', 's', ';']
  else [c]

theorem escapeXml_eq (text : List Char) : escapeXml text = text.flatMap escapeChar := by
  simp only [escapeXml, replaceChar, List.flatMap_assoc]
  congr 1
  funext c
  unfold escapeChar
  split_ifs with h1 h2 h3 h4 h5
  · rfl
  · simp [h2]
  · simp [h3]
  · simp [h4]
  · simp [h5]
  · simp [h2, h3, h4, h5]

theorem escapeXml_cons (c : Char) (text : List Char) : escapeXml (c :: text) = escapeChar c ++ escapeXml text := by
  rw [escapeXml_eq, escapeXml_eq, List.flatMap_cons]

theorem not_mem_escapeChar {c d : Char} (hd : d = '<' ∨ d = '>') : d ∉ escapeChar c := by
  rw [escapeChar]
  split_ifs with h1 h2 h3 h4 h5
  all_goals rcases hd with rfl | rfl
  all_goals first | decide | exact fun hmem => h2 (List.mem_singleton.mp hmem).symm
                  | exact fun hmem => h3 (List.mem_singleton.mp hmem).symm

theorem not_mem_escapeXml {text : List Char} {d : Char} (hd : d = '<' ∨ d = '>') : d ∉ escapeXml text := by
  rw [escapeXml_eq, List.mem_flatMap]
  rintro ⟨c, -, hmem⟩
  exact not_mem_escapeChar hd hmem

theorem contains_escapeXml (text : List Char) : Substring.contains [']', ']', '>'] (escapeXml text) = false := by
  rw [Bool.eq_false_iff, Ne, Substring.contains_iff]
  intro hinside
  exact not_mem_escapeXml (.inr rfl) (hinside.subset (by decide : '>' ∈ [']', ']', '>']))

theorem readTextFrom_escapeChar (c : Char) (rest : List Char) :
    readTextFrom none (escapeChar c ++ rest) = (readTextFrom none rest).map (c :: ·) := by
  rw [escapeChar]
  split_ifs with h1 h2 h3 h4 h5
  · rw [h1]; rfl
  · rw [h2]; rfl
  · rw [h3]; rfl
  · rw [h4]; rfl
  · rw [h5]; rfl
  · rw [List.singleton_append, readTextFrom, if_neg h1, if_neg h2]

/-- The reader gives the text back. -/
theorem readText_escapeXml (text : List Char) : readText (escapeXml text) = some text := by
  induction text with
  | nil => rfl
  | cons c text ih =>
    rw [readText] at ih ⊢
    rw [escapeXml_cons, readTextFrom_escapeChar, ih]
    rfl

theorem escapeChar_return {c : Char} (hc : c ≠ '\r') : '\r' ∉ escapeChar c := by
  rw [escapeChar]
  split_ifs
  all_goals first | decide | exact fun hmem => hc (List.mem_singleton.mp hmem).symm

theorem head_escapeXml {text : List Char} (h : text.head? ≠ some '\n') : (escapeXml text).head? ≠ some '\n' := by
  cases text with
  | nil => exact h
  | cons c text =>
    have hc : c ≠ '\n' := fun hc => h (hc ▸ rfl)
    rw [escapeXml_cons, escapeChar]
    split_ifs
    all_goals first | (rw [List.cons_append, List.head?_cons]; decide) | exact fun hhead => hc (Option.some.inj hhead)

/-- Escaping touches no line end. -/
theorem lineEnds_escapeXml (text : List Char) : lineEnds (escapeXml text) = escapeXml (lineEnds text) := by
  fun_induction lineEnds text with
  | case1 => rfl
  | case2 text ih =>
    rw [escapeXml_cons, escapeXml_cons, escapeXml_cons, ← ih]
    rfl
  | case3 text hnext ih =>
    have hhead : text.head? ≠ some '\n' := by
      cases text with
      | nil => exact fun hc => Option.some_ne_none _ hc.symm
      | cons c text => exact fun hc => hnext text (Option.some.inj hc ▸ rfl)
    have hreturn : escapeXml ('\r' :: text) = '\r' :: escapeXml text := escapeXml_cons _ _
    rw [hreturn, lineEnds_return (head_escapeXml hhead), ih, escapeXml_cons]
    rfl
  | case4 c text hboth hreturn ih =>
    rw [escapeXml_cons, escapeXml_cons, lineEnds_plain (escapeChar_return fun hc => hreturn hc), ih]

theorem all_escapeChar (c : Char) : (escapeChar c).all isXmlChar = isXmlChar c := by
  rw [escapeChar]
  split_ifs with h1 h2 h3 h4 h5
  · rw [h1]; decide
  · rw [h2]; decide
  · rw [h3]; decide
  · rw [h4]; decide
  · rw [h5]; decide
  · simp

theorem all_escapeXml (text : List Char) : (escapeXml text).all isXmlChar = text.all isXmlChar := by
  rw [escapeXml_eq, List.all_flatMap]
  simp only [all_escapeChar]

/-! ### The document read back -/

/-- The document as the reader should give it back. -/
def tree (root item : List Char) (rows : List (List (List Char × List Char))) : Item :=
  .element root [] (rows.map fun row =>
    .element item [] (row.map fun field => .element field.1 [] (field.2.map .character)))

/-- The rows with the line ends of their texts as a reader has them. -/
def endedRows (rows : List (List (List Char × List Char))) : List (List (List Char × List Char)) :=
  rows.map fun row => row.map fun field => (field.1, lineEnds field.2)

section
variable {root item : List Char} {rows : List (List (List Char × List Char))}

theorem lineEnds_document (hroot : IsToken root) (hitem : IsToken item)
    (hnames : ∀ row ∈ rows, ∀ field ∈ row, IsToken field.1) :
    lineEnds (document root item rows) = document root item (endedRows rows) := by
  have hleaf : ∀ row ∈ rows, ∀ field ∈ row, lineEnds (leaf field) = leaf (field.1, lineEnds field.2) := by
    intro row hrow field hfield
    rw [leaf, lineEnds_tagged (hnames row hrow field hfield), lineEnds_escapeXml]
    rfl
  have hrow : ∀ row ∈ rows, lineEnds (rowText item row) =
      rowText item (row.map fun field => (field.1, lineEnds field.2)) := by
    intro row hrow
    rw [rowText, lineEnds_tagged hitem, lineEnds_flatMap (fun _ => rfl) (hleaf row hrow), rowText, List.flatMap_map]
  rw [document, lineEnds_plain (by decide), lineEnds_tagged hroot, lineEnds_flatMap (fun _ => rfl) hrow, document,
    endedRows, List.flatMap_map]

theorem all_document (hroot : IsToken root) (hitem : IsToken item)
    (hnames : ∀ row ∈ rows, ∀ field ∈ row, IsToken field.1) :
    (document root item rows).all isXmlChar = true ↔ ∀ row ∈ rows, ∀ field ∈ row, ∀ c ∈ field.2, isXmlChar c = true := by
  have hdeclaration : declaration.all isXmlChar = true := by decide
  rw [document, List.all_append, hdeclaration, Bool.true_and, all_tagged hroot, List.all_flatMap, List.all_eq_true]
  refine forall₂_congr fun row hrow => ?_
  rw [rowText, all_tagged hitem, List.all_flatMap, List.all_eq_true]
  refine forall₂_congr fun field hfield => ?_
  rw [leaf, all_tagged (hnames row hrow field hfield), all_escapeXml, List.all_eq_true]

theorem dropDeclaration_declaration (body : List Char) : dropDeclaration (declaration ++ body) = some body := by
  rfl

theorem run_document (hroot : IsToken root) (hitem : IsToken item)
    (hnames : ∀ row ∈ rows, ∀ field ∈ row, IsToken field.1) :
    ((⟨[], none, .text []⟩ : State).run (tagged root (rows.flatMap (rowText item)))).bind State.finish =
      if startsName root && rows.all fun row => startsName item && row.all fun field => startsName field.1 then
        some (tree root item rows)
      else none := by
  have hleaf : ∀ row ∈ rows, ∀ field ∈ row,
      Yields (leaf field) (startsName field.1) [.element field.1 [] (field.2.map .character)] :=
    fun row hrow field hfield => yields_leaf (hnames row hrow field hfield) (not_mem_escapeXml (.inl rfl))
      (contains_escapeXml field.2) (readText_escapeXml field.2)
  have hrow : ∀ row ∈ rows, Yields (rowText item row) (startsName item && row.all fun field => startsName field.1)
      [.element item [] (row.map fun field => .element field.1 [] (field.2.map .character))] :=
    fun row hrow => yields_tagged hitem (yields_flatMap (hleaf row hrow))
  exact run_root hroot (yields_flatMap hrow)

/-- What a reader makes of the document. -/
theorem readDocument_document (hroot : IsToken root) (hitem : IsToken item)
    (hnames : ∀ row ∈ rows, ∀ field ∈ row, IsToken field.1) :
    readDocument (document root item rows) =
      if (endedRows rows).all (fun row => row.all fun field => field.2.all isXmlChar) &&
          (startsName root && rows.all fun row => startsName item && row.all fun field => startsName field.1) then
        some (tree root item (endedRows rows))
      else none := by
  have hnames' : ∀ row ∈ endedRows rows, ∀ field ∈ row, IsToken field.1 := by
    intro row hrow field hfield
    obtain ⟨row', hrow', rfl⟩ := List.mem_map.mp hrow
    obtain ⟨field', hfield', rfl⟩ := List.mem_map.mp hfield
    exact hnames row' hrow' field' hfield'
  have hstarts : ((endedRows rows).all fun row => startsName item && row.all fun field => startsName field.1) =
      rows.all fun row => startsName item && row.all fun field => startsName field.1 := by
    rw [endedRows, List.all_map]
    simp only [Function.comp_def, List.all_map]
  have hall : (document root item (endedRows rows)).all isXmlChar =
      (endedRows rows).all fun row => row.all fun field => field.2.all isXmlChar := by
    rw [Bool.eq_iff_iff, all_document hroot hitem hnames']
    simp only [List.all_eq_true]
  have hrun := run_document hroot hitem hnames'
  rw [hstarts] at hrun
  rw [readDocument, lineEnds_document hroot hitem hnames, hall]
  cases (endedRows rows).all fun row => row.all fun field => field.2.all isXmlChar with
  | false => rfl
  | true =>
    rw [if_pos rfl, document, dropDeclaration_declaration, Option.bind_some, hrun, Bool.true_and]

/-- A reader gives the document back exactly when it has no line ends to change. -/
theorem tree_endedRows_iff :
    tree root item (endedRows rows) = tree root item rows ↔ ∀ row ∈ rows, ∀ field ∈ row, '\r' ∉ field.2 := by
  have hmap : Function.Injective (List.map Item.character) :=
    List.map_injective_iff.mpr fun _ _ h => Item.character.inj h
  have hfield : ∀ field : List Char × List Char,
      Item.element field.1 [] ((lineEnds field.2).map .character) = .element field.1 [] (field.2.map .character) ↔
        '\r' ∉ field.2 := by
    intro field
    rw [Item.element.injEq, ← lineEnds_eq_self_iff, hmap.eq_iff]
    simp only [true_and]
  rw [tree, tree, Item.element.injEq, endedRows, List.map_map, List.map_inj_left]
  simp only [true_and, Function.comp_apply, Item.element.injEq, List.map_map, List.map_inj_left]
  simp only [hmap.eq_iff, lineEnds_eq_self_iff]

end

/-! ### The encoder -/

/-- The names begin as names do, and the texts are made of XML characters other than the carriage return. -/
def EncodeXml.Readable (p : EncodeXml) (records : List Json) : Prop :=
  startsName p.root.toList = true ∧ (records ≠ [] → startsName p.item.toList = true) ∧
    ∀ record ∈ records, ∀ field ∈ rowOf record,
      startsName field.1 = true ∧ ∀ c ∈ field.2, isXmlChar c = true ∧ c ≠ '\r'

/-- The root element of the document that the bytes hold. -/
def readBytes (bytes : Bytes) : Option Item := (ofUtf8? bytes).bind fun text => readDocument text.toList

theorem endedRows_eq_self {rows : List (List (List Char × List Char))}
    (h : ∀ row ∈ rows, ∀ field ∈ row, '\r' ∉ field.2) : endedRows rows = rows := by
  have hrow : ∀ row ∈ rows, (row.map fun field => (field.1, lineEnds field.2)) = row := by
    intro row hrow
    have hfield : ∀ field ∈ row, (field.1, lineEnds field.2) = id field :=
      fun field hfield => Prod.ext rfl (lineEnds_eq_self (h row hrow field hfield))
    rw [List.map_congr_left hfield, List.map_id]
  rw [endedRows, List.map_congr_left (g := id) hrow, List.map_id]

/-- The bytes are a well-formed document that gives back every name and text exactly when the names
begin as names do and the texts hold no other characters than a reader keeps. -/
theorem encode_xml_faithful_iff (p : EncodeXml) (processorId : String) (records : List Json) (bytes : Bytes)
    (h : encodeXml p processorId records = .ok bytes) :
    readBytes bytes = some (tree p.root.toList p.item.toList (records.map rowOf)) ↔ p.Readable records := by
  obtain ⟨hnames, rfl⟩ := encodeXml_ok h
  have hroot := isToken_of_supported p.root_supported
  have hitem := isToken_of_supported p.item_supported
  rw [readBytes, ofUtf8?_utf8, Option.bind_some, String.toList_ofList, readDocument_document hroot hitem hnames,
    Option.ite_none_right_eq_some, Option.some.injEq, tree_endedRows_iff, Bool.and_eq_true, Bool.and_eq_true]
  simp only [List.all_eq_true, Bool.and_eq_true, List.forall_mem_map]
  constructor
  · rintro ⟨⟨hchars, hstart, hrows⟩, hreturn⟩
    have hself := endedRows_eq_self (List.forall_mem_map.mpr hreturn)
    rw [hself, List.forall_mem_map] at hchars
    refine ⟨hstart, fun hne => ?_, fun record hrecord field hfield => ⟨(hrows record hrecord).2 field hfield, ?_⟩⟩
    · obtain ⟨record, hrecord⟩ := List.exists_mem_of_ne_nil records hne
      exact (hrows record hrecord).1
    · intro c hc
      refine ⟨hchars record hrecord field hfield c hc, ?_⟩
      rintro rfl
      exact hreturn record hrecord field hfield hc
  · rintro ⟨hstart, hitems, hfields⟩
    have hreturn : ∀ record ∈ records, ∀ field ∈ rowOf record, '\r' ∉ field.2 :=
      fun record hrecord field hfield hmem => ((hfields record hrecord field hfield).2 _ hmem).2 rfl
    have hself := endedRows_eq_self (List.forall_mem_map.mpr hreturn)
    rw [hself, List.forall_mem_map]
    refine ⟨⟨fun record hrecord field hfield c hc => ((hfields record hrecord field hfield).2 c hc).1, hstart,
      fun record hrecord => ⟨hitems (List.ne_nil_of_mem hrecord), fun field hfield =>
        (hfields record hrecord field hfield).1⟩⟩, hreturn⟩

/-- The names of the options by default. -/
def defaultXml : EncodeXml := ⟨"records", "record", by decide, by decide⟩

/-- `a` with the text `<&`. -/
def sampleRecord : Json := .object [(String.ofList ['a'], .string (String.ofList ['<', '&']))]

theorem encode_xml_faithful_iff_sample : ∃ bytes, encodeXml defaultXml "encode" [sampleRecord] = .ok bytes ∧
    (readBytes bytes = some (tree defaultXml.root.toList defaultXml.item.toList ([sampleRecord].map rowOf)) ↔
      defaultXml.Readable [sampleRecord]) :=
  ⟨_, rfl, encode_xml_faithful_iff defaultXml "encode" [sampleRecord] _ rfl⟩

/-- A field whose name begins with a digit. -/
def digitRecord : Json := .object [(String.ofList ['1'], .null)]

theorem encode_xml_digit : ¬ ∀ (p : EncodeXml) (processorId : String) (records : List Json) (bytes : Bytes),
    encodeXml p processorId records = .ok bytes →
      readBytes bytes = some (tree p.root.toList p.item.toList (records.map rowOf)) := by
  intro h
  have hread := h defaultXml "encode" [digitRecord] _ rfl
  obtain ⟨hnames, hbytes⟩ := @encodeXml_ok defaultXml "encode" [digitRecord] _ rfl
  have hstart : startsName ['1'] = false := by decide
  have hfield : ([digitRecord].map rowOf) = [[(['1'], [])]] := by
    simp only [List.map_cons, List.map_nil, rowOf, digitRecord, scalarText, String.toList_ofList, String.toList_empty]
  rw [hbytes, readBytes, ofUtf8?_utf8, Option.bind_some, String.toList_ofList,
    readDocument_document (isToken_of_supported defaultXml.root_supported)
      (isToken_of_supported defaultXml.item_supported) hnames, hfield] at hread
  simp only [List.all_cons, List.all_nil, hstart, Bool.false_and, Bool.and_false] at hread
  cases hread

end Jaiba.Processors
