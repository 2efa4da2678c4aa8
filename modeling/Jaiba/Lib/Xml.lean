import Mathlib.Data.List.Induction
import Mathlib.Data.List.Infix
import Jaiba.Lib.Substring

/-!
# Reading XML 1.0

A reader of documents without a document type declaration: line ends, the XML
declaration, then markup and character data in turn on a stack of open elements.
What it makes of a document are elements with their attributes and the
characters between them; comments and processing instructions are passed over.
-/

namespace Jaiba.Lib.Xml

/-! ### Characters and names -/

/-- `Char`, as far as a Unicode scalar value is no surrogate already. -/
def isXmlCode (n : ℕ) : Bool :=
  n == 9 || n == 10 || n == 13 || (32 ≤ n && n ≤ 0xD7FF) || (0xE000 ≤ n && n ≤ 0xFFFD) ||
    (0x10000 ≤ n && n ≤ 0x10FFFF)

def isXmlChar (c : Char) : Bool := isXmlCode c.toNat

/-- `S`. -/
def isSpace (c : Char) : Bool := c == ' ' || c == '\t' || c == '\n' || c == '\r'

/-- The ranges of `NameStartChar` beyond ASCII. -/
def nameRanges : List (ℕ × ℕ) :=
  [(0xC0, 0xD6), (0xD8, 0xF6), (0xF8, 0x2FF), (0x370, 0x37D), (0x37F, 0x1FFF), (0x200C, 0x200D), (0x2070, 0x218F),
    (0x2C00, 0x2FEF), (0x3001, 0xD7FF), (0xF900, 0xFDCF), (0xFDF0, 0xFFFD), (0x10000, 0xEFFFF)]

/-- `NameStartChar`. -/
def isNameStart (c : Char) : Bool :=
  c == ':' || c == '_' || c.isAlpha || nameRanges.any fun r => r.1 ≤ c.toNat && c.toNat ≤ r.2

/-- `NameChar`. -/
def isNameChar (c : Char) : Bool :=
  isNameStart c || c == '-' || c == '.' || c.isDigit || c.toNat == 0xB7 || (0x300 ≤ c.toNat && c.toNat ≤ 0x36F) ||
    (0x203F ≤ c.toNat && c.toNat ≤ 0x2040)

/-- The name at the front of a text, and what follows it. -/
def readName (text : List Char) : Option (List Char × List Char) :=
  match text with
  | c :: _ => if isNameStart c then some (text.takeWhile isNameChar, text.dropWhile isNameChar) else none
  | [] => none

/-- Line ends: a carriage return, alone or before a line feed, is a line feed. -/
def lineEnds : List Char → List Char
  | [] => []
  | '\r' :: '\n' :: text => '\n' :: lineEnds text
  | '\r' :: text => '\n' :: lineEnds text
  | c :: text => c :: lineEnds text

/-! ### References -/

def charOf (n : ℕ) : Option Char := if isXmlCode n then some (Char.ofNat n) else none

def hexValue (c : Char) : ℕ := if c.isDigit then c.toNat - 48 else c.toLower.toNat - 87

def isHex (c : Char) : Bool := c.isDigit || ('a' ≤ c.toLower && c.toLower ≤ 'f')

/-- What stands between `&` and `;`: a predefined entity or the number of a character. -/
def readReference : List Char → Option Char
  | ['l', 't'] => some '<'
  | ['g', 't'] => some '>'
  | ['a', 'm', 'p'] => some '&'
  | ['a', 'p', 'o', 's'] => some '\''
  | ['q', 'u', 'o', 't'] => some '"'
  | '#' :: 'x' :: digits =>
    if !digits.isEmpty && digits.all isHex then charOf (digits.foldl (fun n c => 16 * n + hexValue c) 0) else none
  | '#' :: digits =>
    if !digits.isEmpty && digits.all Char.isDigit then charOf (Nat.ofDigitChars 10 digits 0) else none
  | _ => none

/-- Character data with its references replaced; a reference that has begun is pending. -/
def readTextFrom : Option (List Char) → List Char → Option (List Char)
  | none, [] => some []
  | some _, [] => none
  | none, c :: text =>
    if c = '&' then readTextFrom (some []) text
    else if c = '<' then none
    else (readTextFrom none text).map (c :: ·)
  | some ref, c :: text =>
    if c = ';' then (readReference ref).bind fun d => (readTextFrom none text).map (d :: ·)
    else readTextFrom (some (ref ++ [c])) text

def readText (raw : List Char) : Option (List Char) := readTextFrom none raw

/-! ### Markup -/

abbrev Attributes := List (List Char × List Char)

/-- The value between quotes at the front of a text, and what follows it. -/
def readValue : List Char → Option (List Char × List Char)
  | [] => none
  | quote :: text =>
    if quote = '"' ∨ quote = '\'' then
      match text.dropWhile (· != quote) with
      | [] => none
      | _ :: rest =>
        (readText ((text.takeWhile (· != quote)).map fun c => if isSpace c then ' ' else c)).map fun value => (value, rest)
    else none

/-- Attributes, each after a space, and what follows them. -/
def readAttributes : ℕ → List Char → Option (Attributes × List Char)
  | 0, _ => none
  | fuel + 1, text =>
    let rest := text.dropWhile isSpace
    match readName rest with
    | none => some ([], rest)
    | some (name, rest') =>
      match rest'.dropWhile isSpace with
      | '=' :: rest'' =>
        if rest.length = text.length then none
        else
          (readValue (rest''.dropWhile isSpace)).bind fun value =>
            (readAttributes fuel value.2).map fun more => ((name, value.1) :: more.1, more.2)
      | _ => none

inductive Markup where
  | start (name : List Char) (attributes : Attributes)
  | empty (name : List Char) (attributes : Attributes)
  | stop (name : List Char)
  | characters (text : List Char)
  | passed

/-- The quote that is open after a text. -/
def quoteAfter (text : List Char) : Option Char :=
  text.foldl (fun quote c =>
    match quote with
    | none => if c = '"' ∨ c = '\'' then some c else none
    | some q => if c = q then none else some q) none

def commentOpening : List Char := ['!', '-', '-']
def cdataOpening : List Char := ['!', '[', 'C', 'D', 'A', 'T', 'A', '[']

/-- Whether the text after `<` is a whole piece of markup, its `>` included. -/
def closes (m : List Char) : Bool :=
  m.getLast? == some '>' &&
    if commentOpening.isPrefixOf m then 6 ≤ m.length && ['-', '-', '>'].isSuffixOf m
    else if cdataOpening.isPrefixOf m then [']', ']', '>'].isSuffixOf m
    else if ['?'].isPrefixOf m then 3 ≤ m.length && ['?', '>'].isSuffixOf m
    else (quoteAfter m).isNone

/-- A start tag or the tag of an empty element. -/
def readTag (m : List Char) : Option Markup :=
  (readName m).bind fun name =>
    (readAttributes (m.length + 1) name.2).bind fun attributes =>
      if (attributes.1.map Prod.fst).Nodup then
        match attributes.2 with
        | ['>'] => some (.start name.1 attributes.1)
        | ['/', '>'] => some (.empty name.1 attributes.1)
        | _ => none
      else none

/-- What the text after `<` says, its `>` included. -/
def readMarkup (m : List Char) : Option Markup :=
  if commentOpening.isPrefixOf m then
    let body := (m.drop 3).take (m.length - 6)
    if Substring.contains ['-', '-'] (body ++ ['-']) then none else some .passed
  else if cdataOpening.isPrefixOf m then some (.characters ((m.drop 8).take (m.length - 11)))
  else
    match m with
    | '?' :: m =>
      (readName m).bind fun target =>
        if target.1.map Char.toLower = ['x', 'm', 'l'] then none
        else if target.2 = ['?', '>'] ∨ (target.2.head?.any isSpace) then some .passed
        else none
    | '/' :: m =>
      (readName m).bind fun name => if name.2.dropWhile isSpace = ['>'] then some (.stop name.1) else none
    | m => readTag m

/-! ### Documents -/

inductive Item where
  | character (c : Char)
  | element (name : List Char) (attributes : Attributes) (children : List Item)

/-- An element whose end tag has not been met. -/
structure Open where
  name : List Char
  attributes : Attributes
  children : List Item

inductive Mode where
  | text (raw : List Char)
  | markup (m : List Char)

structure State where
  stack : List Open
  root : Option Item
  mode : Mode

namespace State

/-- A child of the innermost open element, or else the root of the document. -/
def add (s : State) (item : Item) : Option State :=
  match s.stack with
  | top :: stack => some { s with stack := { top with children := top.children ++ [item] } :: stack }
  | [] => if s.root.isNone then some { s with root := some item } else none

def addText (s : State) (text : List Char) : Option State :=
  match s.stack with
  | top :: stack => some { s with stack := { top with children := top.children ++ text.map .character } :: stack }
  | [] => none

/-- The end of a run of character data; outside of the root only space is allowed. -/
def flush (s : State) (raw : List Char) : Option State :=
  match s.stack with
  | [] => if raw.all isSpace then some s else none
  | _ :: _ => if Substring.contains [']', ']', '>'] raw then none else (readText raw).bind s.addText

def apply (s : State) : Markup → Option State
  | .start name attributes =>
    if s.stack.isEmpty && s.root.isSome then none
    else some { s with stack := ⟨name, attributes, []⟩ :: s.stack }
  | .empty name attributes => s.add (.element name attributes [])
  | .stop name =>
    match s.stack with
    | top :: stack =>
      if top.name = name then { s with stack := stack }.add (.element top.name top.attributes top.children) else none
    | [] => none
  | .characters text => s.addText text
  | .passed => some s

/-- One character of the document. -/
def step (s : State) (c : Char) : Option State :=
  match s.mode with
  | .text raw =>
    if c = '<' then (s.flush raw).map fun s => { s with mode := .markup [] }
    else some { s with mode := .text (raw ++ [c]) }
  | .markup m =>
    if closes (m ++ [c]) then
      (readMarkup (m ++ [c])).bind fun markup => (s.apply markup).map fun s => { s with mode := .text [] }
    else some { s with mode := .markup (m ++ [c]) }

def run (s : State) (text : List Char) : Option State := text.foldlM step s

/-- The root element, once the document is at its end. -/
def finish (s : State) : Option Item :=
  match s.stack, s.mode with
  | [], .text raw => if raw.all isSpace then s.root else none
  | _, _ => none

end State

/-- The attributes that an XML declaration has, in their order. -/
def isDeclaration (attributes : Attributes) : Bool :=
  let version := fun v : List Char => ['1', '.'].isPrefixOf v && 3 ≤ v.length && (v.drop 2).all Char.isDigit
  let encoding := fun v : List Char =>
    (v.head?.any Char.isAlpha) && v.all fun c => c.isAlphanum || c == '.' || c == '_' || c == '-'
  let standalone := fun v : List Char => v == ['y', 'e', 's'] || v == ['n', 'o']
  let names := attributes.map fun a => String.ofList a.1
  let ok := attributes.all fun a =>
    if String.ofList a.1 == "version" then version a.2
    else if String.ofList a.1 == "encoding" then encoding a.2
    else standalone a.2
  ok && [["version"], ["version", "encoding"], ["version", "standalone"], ["version", "encoding", "standalone"]].contains
    names

/-- The document after its declaration, if it has one. -/
def dropDeclaration (text : List Char) : Option (List Char) :=
  if ['<', '?', 'x', 'm', 'l'].isPrefixOf text && (text[5]?).any isSpace then
    (Substring.find ['?', '>'] (text.drop 5)).bind fun split =>
      (readAttributes (split.1.length + 1) split.1).bind fun attributes =>
        if attributes.2.isEmpty && isDeclaration attributes.1 then some split.2 else none
  else some text

/-- The root element of a well-formed document. -/
def readDocument (text : List Char) : Option Item :=
  let text := lineEnds text
  if text.all isXmlChar then
    (dropDeclaration text).bind fun body => ((⟨[], none, .text []⟩ : State).run body).bind State.finish
  else none

/-! ### Line ends -/

theorem lineEnds_return {text : List Char} (h : text.head? ≠ some '\n') :
    lineEnds ('\r' :: text) = '\n' :: lineEnds text := by
  cases text with
  | nil => rfl
  | cons c text =>
    rw [lineEnds]
    rintro tail ⟨⟩
    exact h rfl

theorem lineEnds_append {text rest : List Char} (h : rest.head? ≠ some '\n') :
    lineEnds (text ++ rest) = lineEnds text ++ lineEnds rest := by
  fun_induction lineEnds text with
  | case1 => rfl
  | case2 text ih => rw [List.cons_append, List.cons_append, lineEnds, ih, List.cons_append]
  | case3 text hnext ih =>
    have hhead : (text ++ rest).head? ≠ some '\n' := by
      cases text with
      | nil => exact h
      | cons c text => exact fun hc => hnext text (Option.some.inj hc ▸ rfl)
    rw [List.cons_append, lineEnds_return hhead, ih, List.cons_append]
  | case4 c text hboth hreturn ih =>
    have hc : c ≠ '\r' := fun hc => hreturn hc
    rw [List.cons_append, lineEnds, ih, List.cons_append]
    · exact fun _ hc' _ => hc hc'
    · exact hc

theorem lineEnds_eq_self {text : List Char} (h : '\r' ∉ text) : lineEnds text = text := by
  fun_induction lineEnds text with
  | case1 => rfl
  | case2 text ih => exact absurd List.mem_cons_self h
  | case3 text hnext ih => exact absurd List.mem_cons_self h
  | case4 c text hboth hreturn ih => rw [ih fun hmem => h (List.mem_cons_of_mem c hmem)]

theorem not_mem_lineEnds (text : List Char) : '\r' ∉ lineEnds text := by
  fun_induction lineEnds text with
  | case1 => exact List.not_mem_nil
  | case2 text ih => exact fun hmem => (List.mem_cons.mp hmem).elim (by decide) ih
  | case3 text hnext ih => exact fun hmem => (List.mem_cons.mp hmem).elim (by decide) ih
  | case4 c text hboth hreturn ih => exact fun hmem => (List.mem_cons.mp hmem).elim (fun hc => hreturn hc.symm) ih

theorem lineEnds_eq_self_iff {text : List Char} : lineEnds text = text ↔ '\r' ∉ text :=
  ⟨fun h => h ▸ not_mem_lineEnds text, lineEnds_eq_self⟩

/-! ### Runs -/

namespace State

theorem run_append (s : State) (text rest : List Char) :
    s.run (text ++ rest) = (s.run text).bind fun s => s.run rest := List.foldlM_append

theorem run_text (stack : List Open) (root : Option Item) (raw : List Char) {text : List Char} (h : '<' ∉ text) :
    (⟨stack, root, .text raw⟩ : State).run text = some ⟨stack, root, .text (raw ++ text)⟩ := by
  induction text generalizing raw with
  | nil => rw [List.append_nil]; rfl
  | cons c text ih =>
    rw [List.mem_cons, not_or] at h
    have hstep : step ⟨stack, root, .text raw⟩ c = some ⟨stack, root, .text (raw ++ [c])⟩ :=
      if_neg fun hc => h.1 hc.symm
    rw [run, List.foldlM_cons, hstep]
    refine (ih (raw ++ [c]) h.2).trans ?_
    rw [List.append_assoc, List.singleton_append]

theorem closes_last {m : List Char} (h : closes m = true) : m.getLast? = some '>' := by
  rw [closes, Bool.and_eq_true, beq_iff_eq] at h
  exact h.1

theorem run_markup (stack : List Open) (root : Option Item) (m : List Char) {text : List Char} (h : '>' ∉ text) :
    (⟨stack, root, .markup m⟩ : State).run text = some ⟨stack, root, .markup (m ++ text)⟩ := by
  induction text generalizing m with
  | nil => rw [List.append_nil]; rfl
  | cons c text ih =>
    rw [List.mem_cons, not_or] at h
    have hopen : ¬ closes (m ++ [c]) = true := by
      intro hcloses
      have hlast := closes_last hcloses
      rw [List.getLast?_concat] at hlast
      exact h.1 (Option.some.inj hlast).symm
    have hstep : step ⟨stack, root, .markup m⟩ c = some ⟨stack, root, .markup (m ++ [c])⟩ := if_neg hopen
    rw [run, List.foldlM_cons, hstep]
    refine (ih (m ++ [c]) h.2).trans ?_
    rw [List.append_assoc, List.singleton_append]

/-- A piece of markup after character data. -/
theorem run_piece {stack stack' : List Open} {root root' : Option Item} {raw m : List Char} (hm : '>' ∉ m)
    (hflush : flush ⟨stack, root, .text raw⟩ raw = some ⟨stack', root', .text raw⟩)
    (hcloses : closes (m ++ ['>']) = true) :
    (⟨stack, root, .text raw⟩ : State).run ('<' :: (m ++ ['>'])) =
      (readMarkup (m ++ ['>'])).bind fun markup =>
        ((⟨stack', root', .markup m⟩ : State).apply markup).map fun s => { s with mode := .text [] } := by
  have hopening : step ⟨stack, root, .text raw⟩ '<' = some ⟨stack', root', .markup []⟩ := by
    have hunfold : step ⟨stack, root, .text raw⟩ '<' =
        (flush ⟨stack, root, .text raw⟩ raw).map fun s => { s with mode := .markup [] } := rfl
    rw [hunfold, hflush]
    rfl
  have hclosing : step ⟨stack', root', .markup m⟩ '>' = (readMarkup (m ++ ['>'])).bind fun markup =>
      ((⟨stack', root', .markup m⟩ : State).apply markup).map fun s => { s with mode := .text [] } := if_pos hcloses
  have hlast : (⟨stack', root', .markup m⟩ : State).run ['>'] = step ⟨stack', root', .markup m⟩ '>' := by
    rw [run, List.foldlM_cons]
    cases step ⟨stack', root', .markup m⟩ '>' <;> rfl
  rw [run, List.foldlM_cons, hopening]
  have hrest := run_append ⟨stack', root', .markup []⟩ m ['>']
  rw [run_markup stack' root' [] hm, List.nil_append] at hrest
  exact hrest.trans (hlast.trans hclosing)

end State

/-! ### Tags of a name alone -/

/-- The text begins as a name does. -/
def startsName (name : List Char) : Bool := name.head?.any isNameStart

/-- A text of name characters. -/
def IsToken (name : List Char) : Prop := name ≠ [] ∧ ∀ c ∈ name, isNameChar c = true

variable {name : List Char}

theorem IsToken.not_mem (h : IsToken name) {c : Char} (hc : isNameChar c = false) : c ∉ name := by
  intro hmem
  rw [h.2 c hmem] at hc
  cases hc

theorem readName_token (h : IsToken name) (rest : List Char) :
    readName (name ++ '>' :: rest) = if startsName name then some (name, '>' :: rest) else none := by
  obtain ⟨hne, hall⟩ := h
  have hstop : isNameChar '>' = false := by decide
  have htake : (name ++ '>' :: rest).takeWhile isNameChar = name := by
    rw [List.takeWhile_append_of_pos hall, List.takeWhile_cons_of_neg (by simp [hstop]), List.append_nil]
  have hdrop : (name ++ '>' :: rest).dropWhile isNameChar = '>' :: rest := by
    rw [List.dropWhile_append_of_pos hall, List.dropWhile_cons_of_neg (by simp [hstop])]
  cases name with
  | nil => exact absurd rfl hne
  | cons c name =>
    have hunfold : readName (c :: name ++ '>' :: rest) =
        if isNameStart c then some ((c :: name ++ '>' :: rest).takeWhile isNameChar,
          (c :: name ++ '>' :: rest).dropWhile isNameChar) else none := rfl
    rw [hunfold, htake, hdrop]
    rfl

theorem quoteAfter_plain {m : List Char} (hdouble : '"' ∉ m) (hsingle : '\'' ∉ m) : quoteAfter m = none := by
  induction m using List.reverseRecOn with
  | nil => rfl
  | append_singleton m c ih =>
    rw [List.mem_append, not_or, List.mem_singleton] at hdouble hsingle
    have hm := ih hdouble.1 hsingle.1
    rw [quoteAfter] at hm ⊢
    rw [List.foldl_append, hm]
    exact if_neg fun hc => hc.elim (fun h => hdouble.2 h.symm) fun h => hsingle.2 h.symm

theorem closes_plain {c : Char} {m : List Char} (hbang : c ≠ '!') (hquestion : c ≠ '?') (hdouble : '"' ∉ c :: m)
    (hsingle : '\'' ∉ c :: m) : closes (c :: m ++ ['>']) = true := by
  have hcomment : commentOpening.isPrefixOf (c :: m ++ ['>']) = false := by
    simp [commentOpening, List.isPrefixOf, Ne.symm hbang]
  have hcdata : cdataOpening.isPrefixOf (c :: m ++ ['>']) = false := by
    simp [cdataOpening, List.isPrefixOf, Ne.symm hbang]
  have hprocessing : ['?'].isPrefixOf (c :: m ++ ['>']) = false := by
    simp [List.isPrefixOf, Ne.symm hquestion]
  have hquote : quoteAfter (c :: m ++ ['>']) = none := by
    refine quoteAfter_plain (fun hmem => ?_) fun hmem => ?_
    · exact (List.mem_append.mp hmem).elim hdouble (by decide)
    · exact (List.mem_append.mp hmem).elim hsingle (by decide)
  rw [closes, hcomment, hcdata, hprocessing, hquote, List.getLast?_concat]
  rfl

theorem opening_not_prefix {opening m : List Char} {c d : Char} (h : c ≠ d) :
    (c :: opening).isPrefixOf (d :: m) = false := by
  simp [List.isPrefixOf, h]

theorem readAttributes_none (fuel : ℕ) : readAttributes (fuel + 1) ['>'] = some ([], ['>']) := rfl

theorem IsToken.head (h : IsToken name) : ∃ c rest, name = c :: rest ∧ c ≠ '!' ∧ c ≠ '?' ∧ c ≠ '/' := by
  cases name with
  | nil => exact absurd rfl h.1
  | cons c rest =>
    have hc := h.2 c List.mem_cons_self
    refine ⟨c, rest, rfl, ?_, ?_, ?_⟩ <;> rintro rfl <;> exact absurd hc (by decide)

theorem readMarkup_start (h : IsToken name) :
    readMarkup (name ++ ['>']) = if startsName name then some (.start name []) else none := by
  obtain ⟨c, rest, rfl, hbang, hquestion, hslash⟩ := h.head
  have htag : readMarkup (c :: rest ++ ['>']) = readTag (c :: rest ++ ['>']) := by
    rw [readMarkup, commentOpening, cdataOpening, List.cons_append, opening_not_prefix hbang.symm,
      opening_not_prefix hbang.symm, if_neg Bool.false_ne_true, if_neg Bool.false_ne_true]
    · rintro m ⟨⟩
      exact hquestion rfl
    · rintro m ⟨⟩
      exact hslash rfl
  rw [htag, readTag, readName_token h]
  by_cases hstart : startsName (c :: rest) = true
  · rw [if_pos hstart, if_pos hstart, Option.bind_some, readAttributes_none]
    rfl
  · rw [if_neg hstart, if_neg hstart, Option.bind_none]

theorem readMarkup_stop (h : IsToken name) :
    readMarkup ('/' :: (name ++ ['>'])) = if startsName name then some (.stop name) else none := by
  have hstop : readMarkup ('/' :: (name ++ ['>'])) =
      (readName (name ++ ['>'])).bind fun name =>
        if name.2.dropWhile isSpace = ['>'] then some (.stop name.1) else none := rfl
  rw [hstop, readName_token h]
  by_cases hstart : startsName name = true
  · rw [if_pos hstart, if_pos hstart, Option.bind_some]
    rfl
  · rw [if_neg hstart, if_neg hstart, Option.bind_none]

namespace State

/-- A start tag at the front of the document, or of the content of an element. -/
theorem run_start (h : IsToken name) {stack : List Open} {root : Option Item}
    (hroot : (stack.isEmpty && root.isSome) = false) :
    (⟨stack, root, .text []⟩ : State).run ('<' :: (name ++ ['>'])) =
      if startsName name then some ⟨⟨name, [], []⟩ :: stack, root, .text []⟩ else none := by
  have hflush : flush ⟨stack, root, .text []⟩ [] = some ⟨stack, root, .text []⟩ := by
    cases stack with
    | nil => rfl
    | cons top stack =>
      have hadd : flush ⟨top :: stack, root, .text []⟩ [] =
          some ⟨{ top with children := top.children ++ [] } :: stack, root, .text []⟩ := rfl
      rw [hadd, List.append_nil]
  have hcloses : closes (name ++ ['>']) = true := by
    have hdouble := h.not_mem (c := '"') (by decide)
    have hsingle := h.not_mem (c := '\'') (by decide)
    obtain ⟨c, rest, rfl, hbang, hquestion, -⟩ := h.head
    exact closes_plain hbang hquestion hdouble hsingle
  rw [run_piece (h.not_mem (by decide)) hflush hcloses, readMarkup_start h]
  by_cases hstart : startsName name = true
  · rw [if_pos hstart, if_pos hstart, Option.bind_some, apply, hroot]
    rfl
  · rw [if_neg hstart, if_neg hstart, Option.bind_none]

/-- The end tag of the innermost element, after the last of its characters. -/
theorem run_stop (h : IsToken name) {children : List Item} {stack : List Open} {root : Option Item}
    {raw text : List Char} (hend : Substring.contains [']', ']', '>'] raw = false) (hraw : readText raw = some text) :
    (⟨⟨name, [], children⟩ :: stack, root, .text raw⟩ : State).run ('<' :: '/' :: (name ++ ['>'])) =
      if startsName name then
        (add ⟨stack, root, .text []⟩ (.element name [] (children ++ text.map .character)))
      else none := by
  have hflush : flush ⟨⟨name, [], children⟩ :: stack, root, .text raw⟩ raw =
      some ⟨⟨name, [], children ++ text.map .character⟩ :: stack, root, .text raw⟩ := by
    have hunfold : flush ⟨⟨name, [], children⟩ :: stack, root, .text raw⟩ raw =
        if Substring.contains [']', ']', '>'] raw then none
        else (readText raw).bind (addText ⟨⟨name, [], children⟩ :: stack, root, .text raw⟩) := rfl
    rw [hunfold, hend, hraw]
    rfl
  have hslash : '>' ∉ '/' :: name := by
    rw [List.mem_cons, not_or]
    exact ⟨by decide, h.not_mem (by decide)⟩
  have hcloses : closes ('/' :: name ++ ['>']) = true := by
    refine closes_plain (by decide) (by decide) ?_ ?_
    · rw [List.mem_cons, not_or]
      exact ⟨by decide, h.not_mem (by decide)⟩
    · rw [List.mem_cons, not_or]
      exact ⟨by decide, h.not_mem (by decide)⟩
  have hpiece := run_piece hslash hflush hcloses
  rw [List.cons_append] at hpiece
  rw [hpiece, readMarkup_stop h]
  by_cases hstart : startsName name = true
  · have happly : apply ⟨⟨name, [], children ++ text.map .character⟩ :: stack, root, .markup ('/' :: name)⟩ (.stop name) =
        add ⟨stack, root, .markup ('/' :: name)⟩ (.element name [] (children ++ text.map .character)) := if_pos rfl
    rw [if_pos hstart, if_pos hstart, Option.bind_some, happly]
    cases stack with
    | nil => cases root <;> rfl
    | cons top stack => rfl
  · rw [if_neg hstart, if_neg hstart, Option.bind_none]

end State

/-! ### Elements in the content of another -/

/-- The element of a name with a content. -/
def tagged (name body : List Char) : List Char := '<' :: (name ++ ['>']) ++ (body ++ '<' :: '/' :: (name ++ ['>']))

/-- Inside an element the text adds the items to its children, or else is refused. -/
def Yields (text : List Char) (ok : Bool) (items : List Item) : Prop :=
  ∀ (top : Open) (stack : List Open) (root : Option Item), (⟨top :: stack, root, .text []⟩ : State).run text =
    if ok then some ⟨{ top with children := top.children ++ items } :: stack, root, .text []⟩ else none

theorem yields_nil : Yields [] true [] := by
  intro top stack root
  rw [List.append_nil]
  rfl

theorem Yields.append {text text' : List Char} {ok ok' : Bool} {items items' : List Item} (h : Yields text ok items)
    (h' : Yields text' ok' items') : Yields (text ++ text') (ok && ok') (items ++ items') := by
  intro top stack root
  rw [State.run_append, h]
  cases ok with
  | false => rfl
  | true =>
    rw [if_pos rfl, Option.bind_some, h', Bool.true_and, List.append_assoc]

theorem yields_flatMap {α : Type} {f : α → List Char} {ok : α → Bool} {item : α → Item} {as : List α}
    (h : ∀ a ∈ as, Yields (f a) (ok a) [item a]) : Yields (as.flatMap f) (as.all ok) (as.map item) := by
  induction as with
  | nil => exact yields_nil
  | cons a as ih =>
    rw [List.flatMap_cons, List.all_cons, List.map_cons, ← List.singleton_append]
    exact (h a List.mem_cons_self).append (ih fun b hb => h b (List.mem_cons_of_mem a hb))

/-- An element whose content is other elements. -/
theorem yields_tagged (hname : IsToken name) {body : List Char} {ok : Bool} {items : List Item}
    (hbody : Yields body ok items) : Yields (tagged name body) (startsName name && ok) [.element name [] items] := by
  intro top stack root
  rw [tagged, State.run_append, State.run_start hname rfl]
  cases hstart : startsName name with
  | false => rfl
  | true =>
    rw [if_pos rfl, Option.bind_some, State.run_append, hbody]
    cases ok with
    | false => rfl
    | true =>
      rw [if_pos rfl, Option.bind_some, List.nil_append,
        State.run_stop hname (by rfl : Substring.contains [']', ']', '>'] [] = false) (by rfl : readText [] = some []),
        hstart, List.map_nil, List.append_nil]
      rfl

/-- An element whose content is characters. -/
theorem yields_leaf (hname : IsToken name) {raw text : List Char} (hopening : '<' ∉ raw)
    (hend : Substring.contains [']', ']', '>'] raw = false) (hraw : readText raw = some text) :
    Yields (tagged name raw) (startsName name) [.element name [] (text.map .character)] := by
  intro top stack root
  rw [tagged, State.run_append, State.run_start hname rfl]
  cases hstart : startsName name with
  | false => rfl
  | true =>
    rw [if_pos rfl, Option.bind_some, State.run_append, State.run_text _ _ _ hopening, Option.bind_some,
      List.nil_append, State.run_stop hname hend hraw, hstart, List.nil_append]
    rfl

/-- A document that is one element. -/
theorem run_root (hname : IsToken name) {body : List Char} {ok : Bool} {items : List Item} (hbody : Yields body ok items) :
    ((⟨[], none, .text []⟩ : State).run (tagged name body)).bind State.finish =
      if startsName name && ok then some (.element name [] items) else none := by
  rw [tagged, State.run_append, State.run_start hname rfl]
  cases hstart : startsName name with
  | false => rfl
  | true =>
    rw [if_pos rfl, Option.bind_some, State.run_append, hbody]
    cases ok with
    | false => rfl
    | true =>
      rw [if_pos rfl, Option.bind_some, List.nil_append,
        State.run_stop hname (by rfl : Substring.contains [']', ']', '>'] [] = false) (by rfl : readText [] = some []),
        hstart, List.map_nil, List.append_nil]
      rfl

/-! ### Line ends in elements -/

theorem lineEnds_plain {text : List Char} (h : '\r' ∉ text) (rest : List Char) :
    lineEnds (text ++ rest) = text ++ lineEnds rest := by
  induction text with
  | nil => rfl
  | cons c text ih =>
    rw [List.mem_cons, not_or] at h
    rw [List.cons_append, lineEnds, ih h.2, List.cons_append]
    · exact fun _ hc _ => h.1 hc.symm
    · exact fun hc => h.1 hc.symm

theorem lineEnds_tagged (hname : IsToken name) (body : List Char) :
    lineEnds (tagged name body) = tagged name (lineEnds body) := by
  have hreturn : '\r' ∉ name := hname.not_mem (by decide)
  have hopening : '\r' ∉ '<' :: (name ++ ['>']) := by
    simp only [List.mem_cons, List.mem_append, not_or]
    exact ⟨by decide, hreturn, by decide, List.not_mem_nil⟩
  have hclosing : '\r' ∉ '<' :: '/' :: (name ++ ['>']) := by
    simp only [List.mem_cons, List.mem_append, not_or]
    exact ⟨by decide, by decide, hreturn, by decide, List.not_mem_nil⟩
  have hhead : ('<' :: '/' :: (name ++ ['>'])).head? ≠ some '\n' := by
    rw [List.head?_cons]
    decide
  rw [tagged, lineEnds_plain hopening, lineEnds_append hhead, lineEnds_eq_self hclosing]
  rfl

theorem lineEnds_flatMap {α : Type} {f g : α → List Char} {as : List α} (hhead : ∀ a, (f a).head? = some '<')
    (h : ∀ a ∈ as, lineEnds (f a) = g a) : lineEnds (as.flatMap f) = as.flatMap g := by
  induction as with
  | nil => rfl
  | cons a as ih =>
    have hrest : (as.flatMap f).head? ≠ some '\n' := by
      cases as with
      | nil => exact fun hc => Option.some_ne_none _ hc.symm
      | cons b as =>
        rw [List.flatMap_cons, List.head?_append, hhead b, Option.some_or]
        decide
    rw [List.flatMap_cons, lineEnds_append hrest, h a List.mem_cons_self,
      ih fun b hb => h b (List.mem_cons_of_mem a hb), List.flatMap_cons]

theorem isXmlChar_of_isNameChar {c : Char} (h : isNameChar c = true) : isXmlChar c = true := by
  have hletter : c.isAlpha = true → 32 ≤ c.toNat ∧ c.toNat ≤ 0xD7FF := by
    intro hc
    have halpha : c.isAlpha = (decide ('A'.val ≤ c.val ∧ c.val ≤ 'Z'.val) ||
        (decide ('a'.val ≤ c.val) && decide (c.val ≤ 'z'.val))) := rfl
    simp only [halpha, Bool.or_eq_true, Bool.and_eq_true, decide_eq_true_eq, UInt32.le_iff_toNat_le] at hc
    have hval : c.toNat = c.val.toNat := rfl
    have hA : ('A'.val).toNat = 65 := rfl
    have hZ : ('Z'.val).toNat = 90 := rfl
    have ha : ('a'.val).toNat = 97 := rfl
    have hz : ('z'.val).toNat = 122 := rfl
    omega
  have hdigit : c.isDigit = true → 32 ≤ c.toNat ∧ c.toNat ≤ 0xD7FF := by
    intro hc
    simp only [Char.isDigit, Bool.and_eq_true, decide_eq_true_eq, ge_iff_le, UInt32.le_iff_toNat_le] at hc
    have hval : c.toNat = c.val.toNat := rfl
    have h0 : ('0'.val).toNat = 48 := rfl
    have h9 : ('9'.val).toNat = 57 := rfl
    omega
  have hmark : ∀ d : Char, d.toNat = 58 ∨ d.toNat = 95 ∨ d.toNat = 45 ∨ d.toNat = 46 → (c == d) = true →
      32 ≤ c.toNat ∧ c.toNat ≤ 0xD7FF := by
    intro d hd hc
    rw [beq_iff_eq.mp hc]
    omega
  simp only [isNameChar, isNameStart, nameRanges, List.any_cons, List.any_nil, Bool.or_false, Bool.or_eq_true,
    Bool.and_eq_true, decide_eq_true_eq, beq_iff_eq] at h
  simp only [isXmlChar, isXmlCode, Bool.or_eq_true, Bool.and_eq_true, decide_eq_true_eq, beq_iff_eq]
  rcases h with (((((h | h) | h) | h) | h) | h) | h
  · rcases h with ((h | h) | h) | h
    · have := hmark ':' (by decide) (beq_iff_eq.mpr h)
      omega
    · have := hmark '_' (by decide) (beq_iff_eq.mpr h)
      omega
    · have := hletter h
      omega
    · omega
  · have := hmark '-' (by decide) (beq_iff_eq.mpr h)
    omega
  · have := hmark '.' (by decide) (beq_iff_eq.mpr h)
    omega
  · have := hdigit h
    omega
  · omega
  · omega
  · omega

theorem all_tagged (hname : IsToken name) (body : List Char) :
    (tagged name body).all isXmlChar = body.all isXmlChar := by
  have hall : name.all isXmlChar = true := List.all_eq_true.mpr fun c hc => isXmlChar_of_isNameChar (hname.2 c hc)
  simp only [tagged, List.all_append, List.all_cons, List.all_nil, hall, Bool.and_true, Bool.true_and]
  have hmarks : isXmlChar '<' = true ∧ isXmlChar '>' = true ∧ isXmlChar '/' = true := by decide
  simp only [hmarks, Bool.and_true, Bool.true_and]

end Jaiba.Lib.Xml
