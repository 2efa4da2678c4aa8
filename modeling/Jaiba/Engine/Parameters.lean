import Jaiba.Engine.Interpolation

/-!
# The order of the parameters

A text is cut into letters and the placeholders of the parameters. Where the
values bring no placeholder in, replacing one parameter after another gives in
every order the text with all of them replaced at once.
-/

namespace Jaiba.Engine.Interpolation
open Jaiba.Lib

inductive Piece where
  | letter (c : Char)
  | ref (name : Text)

/-- The letters of a piece, a placeholder that has a value replaced by it. -/
def Piece.render (values : Text → Option Text) : Piece → Text
  | .letter c => [c]
  | .ref name => (values name).getD (placeholder name)

def render (values : Text → Option Text) (pieces : List Piece) : Text := pieces.flatMap (Piece.render values)

/-- The pieces of a text; the number counts letters of a placeholder still to be passed. -/
def cutFrom (names : List Text) : ℕ → Text → List Piece
  | _, [] => []
  | skip + 1, _ :: cs => cutFrom names skip cs
  | 0, c :: cs =>
    match names.find? fun name => (placeholder name).isPrefixOf (c :: cs) with
    | some name => .ref name :: cutFrom names ((placeholder name).length - 1) cs
    | none => .letter c :: cutFrom names 0 cs

/-- The text with the placeholders of all the parameters replaced at once. -/
def replacedAtOnce (params : List (Text × Text)) (text : Text) : Text :=
  render (fun name => params.lookup name) (cutFrom (params.map Prod.fst) 0 text)

/-! ### The cut -/

theorem render_cons (values : Text → Option Text) (piece : Piece) (pieces : List Piece) :
    render values (piece :: pieces) = piece.render values ++ render values pieces := rfl

theorem render_cutFrom (names : List Text) (skip : ℕ) (text : Text) :
    render (fun _ => none) (cutFrom names skip text) = text.drop skip := by
  induction text generalizing skip with
  | nil =>
    rw [cutFrom, List.drop_nil]
    rfl
  | cons c cs ih =>
    cases skip with
    | succ skip =>
      rw [cutFrom, ih]
      rfl
    | zero =>
      rw [cutFrom, List.drop_zero]
      cases hfind : names.find? fun name => (placeholder name).isPrefixOf (c :: cs) with
      | none => exact congrArg (c :: ·) (ih 0)
      | some name =>
        have hfound := List.find?_some hfind
        obtain ⟨rest, hrest⟩ := List.isPrefixOf_iff_prefix.mp hfound
        have hcs : cs = '{' :: (name ++ ['}']) ++ rest := (List.cons.inj hrest).2.symm
        dsimp only
        rw [render_cons, ih, hcs]
        have hlength : (placeholder name).length - 1 = ('{' :: (name ++ ['}'])).length := rfl
        rw [hlength, List.drop_left]
        exact hrest.trans (congrArg (c :: ·) hcs)

/-- A name that cannot overlap with another placeholder. -/
def CleanName (name : Text) : Prop := '$' ∉ name ∧ '}' ∉ name

theorem names_of_cutFrom {names : List Text} {skip : ℕ} {text : Text} {name : Text}
    (h : .ref name ∈ cutFrom names skip text) : name ∈ names := by
  induction text generalizing skip with
  | nil =>
    rw [cutFrom] at h
    cases h
  | cons c cs ih =>
    cases skip with
    | succ skip => exact ih h
    | zero =>
      rw [cutFrom] at h
      cases hfind : names.find? fun name => (placeholder name).isPrefixOf (c :: cs) with
      | none =>
        rw [hfind] at h
        dsimp only at h
        rcases List.mem_cons.mp h with h | h
        · cases h
        · exact ih h
      | some found =>
        rw [hfind] at h
        dsimp only at h
        rcases List.mem_cons.mp h with h | h
        · cases h
          exact List.mem_of_find?_eq_some hfind
        · exact ih h

/-! ### Where a placeholder may begin -/

theorem prefix_append_cases {z v w : Text} (h : z <+: v ++ w) : z <+: v ∨ ∃ rest, z = v ++ rest ∧ rest <+: w := by
  rcases List.prefix_or_prefix_of_prefix h (List.prefix_append v w) with hshort | ⟨rest, hrest⟩
  · exact .inl hshort
  · rw [← hrest, List.prefix_append_right_inj] at h
    exact .inr ⟨rest, hrest.symm, h⟩

/-- Letters without `$` that begin what is rendered also begin it where more placeholders have values. -/
theorem prefix_render {values all : Text → Option Text} (hall : ∀ name v, values name = some v → all name = some v)
    {pieces : List Piece} {z : Text} (hz : '$' ∉ z) (h : z <+: render values pieces) : z <+: render all pieces := by
  induction pieces generalizing z with
  | nil => exact h
  | cons piece pieces ih =>
    rw [render_cons] at h ⊢
    have hsame : ∀ w, piece.render values = w → piece.render all = w → z <+: w ++ render all pieces := by
      rintro w hw -
      rw [hw] at h
      rcases prefix_append_cases h with hshort | ⟨rest, rfl, hrest⟩
      · exact hshort.trans (List.prefix_append w _)
      · have hfree : '$' ∉ rest := fun hmem => hz (List.mem_append_right w hmem)
        rw [List.prefix_append_right_inj]
        exact ih hfree hrest
    cases piece with
    | letter c => exact hsame [c] rfl rfl
    | ref name =>
      cases hvalue : values name with
      | some v =>
        have hv : (Piece.ref name).render values = v := by rw [Piece.render, hvalue, Option.getD_some]
        have hv' : (Piece.ref name).render all = v := by rw [Piece.render, hall name v hvalue, Option.getD_some]
        rw [hv']
        exact hsame v hv hv'
      | none =>
        rw [Piece.render, hvalue, Option.getD_none] at h
        cases z with
        | nil => exact List.nil_prefix
        | cons c z =>
          rw [placeholder, List.cons_append, List.cons_prefix_cons] at h
          exact absurd List.mem_cons_self (h.1 ▸ hz)

theorem prefix_append_render {values all : Text → Option Text}
    (hall : ∀ name v, values name = some v → all name = some v) {pieces : List Piece} {z w : Text} (hz : '$' ∉ z)
    (h : z <+: w ++ render values pieces) : z <+: w ++ render all pieces := by
  rcases prefix_append_cases h with hshort | ⟨rest, rfl, hrest⟩
  · exact hshort.trans (List.prefix_append w _)
  · rw [List.prefix_append_right_inj]
    exact prefix_render hall (fun hmem => hz (List.mem_append_right w hmem)) hrest

/-- Letters in which no placeholder begins are passed. -/
theorem replace_passed {pattern replacement w rest : Text}
    (h : ∀ u c v, w = u ++ c :: v → ¬ pattern <+: c :: v ++ rest) :
    Substring.replace pattern replacement (w ++ rest) = w ++ Substring.replace pattern replacement rest := by
  induction w with
  | nil => rfl
  | cons c w ih =>
    have hhead := h [] c w rfl
    rw [List.cons_append] at hhead ⊢
    rw [Substring.replace_letter hhead, ih, List.cons_append]
    intro u d v hw
    exact h (c :: u) d v (by rw [hw, List.cons_append])

theorem placeholder_ne_nil (name : Text) : placeholder name ≠ [] := List.cons_ne_nil _ _

theorem placeholder_tail {name : Text} (h : CleanName name) : '$' ∉ '{' :: (name ++ ['}']) := by
  simp [h.1]

/-- Two placeholders that begin at one place are one. -/
theorem placeholder_unique {a b rest : Text} (ha : CleanName a) (hb : CleanName b)
    (h : placeholder a <+: placeholder b ++ rest) : a = b := by
  have hnames : a ++ ['}'] <+: b ++ '}' :: rest := by
    rw [placeholder, placeholder, List.cons_append, List.cons_append, List.cons_prefix_cons, List.cons_prefix_cons,
      List.append_assoc] at h
    exact h.2.2
  clear h
  induction a generalizing b with
  | nil =>
    cases b with
    | nil => rfl
    | cons d b =>
      rw [List.nil_append, List.cons_append, List.cons_prefix_cons] at hnames
      exact absurd (hnames.1 ▸ List.mem_cons_self) hb.2
  | cons c a ih =>
    cases b with
    | nil =>
      rw [List.cons_append, List.nil_append, List.cons_prefix_cons] at hnames
      exact absurd (hnames.1 ▸ List.mem_cons_self) ha.2
    | cons d b =>
      rw [List.cons_append, List.cons_append, List.cons_prefix_cons] at hnames
      have ha' : CleanName a := ⟨fun hm => ha.1 (List.mem_cons_of_mem c hm), fun hm => ha.2 (List.mem_cons_of_mem c hm)⟩
      have hb' : CleanName b := ⟨fun hm => hb.1 (List.mem_cons_of_mem d hm), fun hm => hb.2 (List.mem_cons_of_mem d hm)⟩
      rw [hnames.1, ih ha' hb' hnames.2]

/-! ### One parameter after another -/

/-- Replacing one more parameter gives its placeholders their value and changes nothing else. -/
theorem replace_render {values all : Text → Option Text} {name v : Text}
    (hall : ∀ name v, values name = some v → all name = some v) (hnew : values name = none) (hclean : CleanName name)
    {pieces : List Piece} (hpieces : ∀ other, .ref other ∈ pieces → CleanName other)
    (hfree : ¬ placeholder name <:+: render all pieces) :
    Substring.replace (placeholder name) v (render values pieces) =
      render (Function.update values name (some v)) pieces := by
  induction pieces with
  | nil => rfl
  | cons piece pieces ih =>
    have htail := ih (fun other hother => hpieces other (List.mem_cons_of_mem piece hother))
      (fun h => hfree (h.trans (List.suffix_append (piece.render all) _).isInfix))
    -- no placeholder of the name begins in letters or in a value
    have hpassed : ∀ w, piece.render values = w → piece.render all = w →
        Substring.replace (placeholder name) v (w ++ render values pieces) =
          w ++ Substring.replace (placeholder name) v (render values pieces) := by
      intro w _ hw
      refine replace_passed fun u c rest hsplit h => hfree ?_
      rw [placeholder, List.cons_append, List.cons_prefix_cons] at h
      have hbegins := prefix_append_render hall (placeholder_tail hclean) h.2
      have hinside : placeholder name <+: c :: rest ++ render all pieces := by
        rw [placeholder, List.cons_append, List.cons_prefix_cons]
        exact ⟨h.1, hbegins⟩
      rw [render_cons, hw, hsplit, List.append_assoc]
      exact hinside.isInfix.trans (List.suffix_append u _).isInfix
    rw [render_cons, render_cons]
    cases piece with
    | letter c =>
      have hletter := hpassed [c] rfl rfl
      rw [htail] at hletter
      exact hletter
    | ref other =>
      cases hvalue : values other with
      | some w =>
        have hne : other ≠ name := by
          rintro rfl
          rw [hnew] at hvalue
          cases hvalue
        have hw : (Piece.ref other).render values = w := by rw [Piece.render, hvalue, Option.getD_some]
        have hw' : (Piece.ref other).render all = w := by rw [Piece.render, hall other w hvalue, Option.getD_some]
        have hupdate : (Piece.ref other).render (Function.update values name (some v)) = w := by
          rw [Piece.render, Function.update_of_ne hne, hvalue, Option.getD_some]
        rw [hw, hupdate, hpassed w hw hw', htail]
      | none =>
        have hother : (Piece.ref other).render values = placeholder other := by
          rw [Piece.render, hvalue, Option.getD_none]
        by_cases hname : other = name
        · subst hname
          have hupdate : (Piece.ref other).render (Function.update values other (some v)) = v := by
            rw [Piece.render, Function.update_self, Option.getD_some]
          rw [hother, hupdate, Substring.replace_pattern (placeholder_ne_nil other), htail]
        · have hupdate : (Piece.ref other).render (Function.update values name (some v)) = placeholder other := by
            rw [Piece.render, Function.update_of_ne hname, hvalue, Option.getD_none]
          rw [hother, hupdate, ← htail]
          refine replace_passed fun u c rest hsplit h => ?_
          cases u with
          | nil =>
            rw [List.nil_append] at hsplit
            rw [← hsplit] at h
            exact hname (placeholder_unique hclean (hpieces other List.mem_cons_self) h).symm
          | cons d u =>
            have hmem : c ∈ '{' :: (other ++ ['}']) := by
              rw [(List.cons.inj hsplit).2]
              exact List.mem_append_right u List.mem_cons_self
            rw [placeholder, List.cons_append, List.cons_prefix_cons] at h
            exact placeholder_tail (hpieces other List.mem_cons_self) (h.1 ▸ hmem)

/-- The parameters have names of their own, and none of these can overlap with another placeholder. -/
structure Names (params : List (Text × Text)) : Prop where
  nodup : (params.map Prod.fst).Nodup
  clean : ∀ p ∈ params, CleanName p.1

/-- The values bring no placeholder of a parameter into the text. -/
def Settled (params : List (Text × Text)) (text : Text) : Prop :=
  ∀ p ∈ params, ¬ placeholder p.1 <:+: replacedAtOnce params text

theorem lookup_of_mem {params : List (Text × Text)} (hnodup : (params.map Prod.fst).Nodup) {p : Text × Text}
    (hp : p ∈ params) : params.lookup p.1 = some p.2 := by
  induction params with
  | nil => cases hp
  | cons q params ih =>
    rw [List.map_cons, List.nodup_cons] at hnodup
    rw [List.lookup_cons]
    rcases List.mem_cons.mp hp with rfl | hp
    · rw [beq_self_eq_true]
    · have hne : p.1 ≠ q.1 := fun h => hnodup.1 (h ▸ List.mem_map_of_mem hp)
      rw [beq_eq_false_iff_ne.mpr hne]
      exact ih hnodup.2 hp

theorem mem_of_lookup_eq {params : List (Text × Text)} {name v : Text} (h : params.lookup name = some v) :
    name ∈ params.map Prod.fst := by
  obtain ⟨l, r, rfl, -⟩ := List.lookup_eq_some_iff.mp h
  simp

/-- The values of the parameters that are done. -/
def valuesOf (params done : List (Text × Text)) (name : Text) : Option Text :=
  if name ∈ done.map Prod.fst then params.lookup name else none

theorem replaceParameters_render {params : List (Text × Text)} (h : Names params) {text : Text}
    (hsettled : Settled params text) (done : List (Text × Text)) {rest : List (Text × Text)} (hperm : (done ++ rest).Perm params) :
    replaceParameters rest (render (valuesOf params done) (cutFrom (params.map Prod.fst) 0 text)) =
      replacedAtOnce params text := by
  induction rest generalizing done with
  | nil =>
    rw [List.append_nil] at hperm
    have hvalues : valuesOf params done = fun name => params.lookup name := by
      funext name
      rw [valuesOf]
      split
      · rfl
      next hmem =>
        cases hlookup : params.lookup name with
        | none => rfl
        | some v => exact absurd ((hperm.map Prod.fst).mem_iff.mpr (mem_of_lookup_eq hlookup)) hmem
    rw [replaceParameters, List.foldl_nil, hvalues]
    rfl
  | cons p rest ih =>
    have hmem : p ∈ params := hperm.mem_iff.mp (List.mem_append_right done List.mem_cons_self)
    have hkeys : ((done ++ p :: rest).map Prod.fst).Nodup := ((hperm.map Prod.fst).nodup_iff).mpr h.nodup
    have hnew : p.1 ∉ done.map Prod.fst := by
      rw [List.map_append, List.map_cons, List.nodup_append] at hkeys
      exact fun hdone => hkeys.2.2 p.1 hdone p.1 List.mem_cons_self rfl
    have hall : ∀ name v, valuesOf params done name = some v → params.lookup name = some v := by
      intro name v hv
      rw [valuesOf] at hv
      split at hv
      · exact hv
      · cases hv
    have hclean : ∀ other, .ref other ∈ cutFrom (params.map Prod.fst) 0 text → CleanName other := by
      intro other hother
      obtain ⟨q, hq, rfl⟩ := List.mem_map.mp (names_of_cutFrom hother)
      exact h.clean q hq
    have hstep := replace_render (v := p.2) hall (by rw [valuesOf, if_neg hnew]) (h.clean p hmem) hclean
      (hsettled p hmem)
    have hvalues : Function.update (valuesOf params done) p.1 (some p.2) = valuesOf params (done ++ [p]) := by
      funext name
      by_cases hname : name = p.1
      · rw [hname, Function.update_self, valuesOf, if_pos (by simp), lookup_of_mem h.nodup hmem]
      · rw [Function.update_of_ne hname, valuesOf, valuesOf]
        refine if_congr ?_ rfl rfl
        rw [List.map_append, List.map_singleton, List.mem_append, List.mem_singleton, or_iff_left hname]
    rw [replaceParameters, List.foldl_cons, hstep, hvalues]
    exact ih (done ++ [p]) (by rw [List.append_assoc]; exact hperm)

/-- In every order the placeholders of a settled text are all replaced at once. -/
theorem replaceParameters_eq {params order : List (Text × Text)} (h : Names params) {text : Text}
    (hsettled : Settled params text) (horder : order.Perm params) :
    replaceParameters order text = replacedAtOnce params text := by
  have hstart : render (valuesOf params []) (cutFrom (params.map Prod.fst) 0 text) = text :=
    render_cutFrom (params.map Prod.fst) 0 text
  have hrun := replaceParameters_render h hsettled [] horder
  rw [hstart] at hrun
  exact hrun

/-! ### Configurations -/

mutual

/-- The strings that `interpolate_value` visits. -/
def textsOf : Json → List Text
  | .string text => [text.toList]
  | .array items => textsOfItems items
  | .object fields => textsOfFields fields
  | _ => []

def textsOfItems : List Json → List Text
  | [] => []
  | item :: rest => textsOf item ++ textsOfItems rest

def textsOfFields : List (String × Json) → List Text
  | [] => []
  | (_, value) :: rest => textsOf value ++ textsOfFields rest

end

section Orders

variable {env : Variables} {order order' : List (Text × Text)} {rounds : ℕ}

mutual

/-- Two orders that replace the strings of a value alike interpolate it alike. -/
theorem interpolateValue_congr : ∀ value : Json,
    (∀ text ∈ textsOf value, replaceParameters order text = replaceParameters order' text) →
    interpolateValue env order rounds value = interpolateValue env order' rounds value
  | .string text, h => by
    have htext := h text.toList (by rw [textsOf]; exact List.mem_singleton_self _)
    rw [interpolateValue, interpolateValue, interpolateText, interpolateText, htext]
  | .array items, h => by
    rw [textsOf] at h
    rw [interpolateValue, interpolateValue, interpolateItems_congr items h]
  | .object fields, h => by
    rw [textsOf] at h
    rw [interpolateValue, interpolateValue, interpolateFields_congr fields h]
  | .null, _ => rfl
  | .bool _, _ => rfl
  | .number _, _ => rfl

theorem interpolateItems_congr : ∀ items : List Json,
    (∀ text ∈ textsOfItems items, replaceParameters order text = replaceParameters order' text) →
    interpolateItems env order rounds items = interpolateItems env order' rounds items
  | [], _ => rfl
  | item :: rest, h => by
    rw [textsOfItems] at h
    rw [interpolateItems, interpolateItems,
      interpolateValue_congr item fun text ht => h text (List.mem_append_left _ ht),
      interpolateItems_congr rest fun text ht => h text (List.mem_append_right _ ht)]

theorem interpolateFields_congr : ∀ fields : List (String × Json),
    (∀ text ∈ textsOfFields fields, replaceParameters order text = replaceParameters order' text) →
    interpolateFields env order rounds fields = interpolateFields env order' rounds fields
  | [], _ => rfl
  | (key, value) :: rest, h => by
    rw [textsOfFields] at h
    rw [interpolateFields, interpolateFields,
      interpolateValue_congr value fun text ht => h text (List.mem_append_left _ ht),
      interpolateFields_congr rest fun text ht => h text (List.mem_append_right _ ht)]

end

end Orders

/-- In two orders of the parameters the same configuration is made, or both fail. -/
def OrdersAgree (env : Variables) (params : List (Text × Text)) (configs : List Json) : Prop :=
  ∀ order order' : List (Text × Text), order.Perm params → order'.Perm params →
    (∀ out, (∃ rounds, resolveProcessorParameters env order rounds configs = some (.ok out)) ↔
      ∃ rounds, resolveProcessorParameters env order' rounds configs = some (.ok out)) ∧
    ((∃ rounds e, resolveProcessorParameters env order rounds configs = some (.error e)) ↔
      ∃ rounds e, resolveProcessorParameters env order' rounds configs = some (.error e))

/-- Where the names are clean and the values bring no placeholder into a string, the order is of no effect. -/
theorem orders_agree_of_settled (env : Variables) {params : List (Text × Text)} {configs : List Json}
    (hnames : Names params) (hsettled : ∀ text ∈ textsOfItems configs, Settled params text) :
    OrdersAgree env params configs := by
  intro order order' horder horder'
  have hsame : ∀ rounds, resolveProcessorParameters env order rounds configs =
      resolveProcessorParameters env order' rounds configs := by
    intro rounds
    refine interpolateItems_congr configs fun text ht => ?_
    rw [replaceParameters_eq hnames (hsettled text ht) horder, replaceParameters_eq hnames (hsettled text ht) horder']
  simp only [hsame, implies_true, and_self]

/-! ### A value that refers to another parameter -/

/-- `host` and `port`, used in one string. -/
def plainParameters : List (Text × Text) := [(['h'], ['d', 'b']), (['p'], ['1'])]

def plainConfig : List Json := [.object [("url", .string "${h}:${p}")]]

theorem orders_agree_plain : OrdersAgree (fun _ => none) plainParameters plainConfig := by
  refine orders_agree_of_settled _ ⟨by decide, ?_⟩ ?_
  · intro p hp
    simp only [plainParameters, List.mem_cons, List.not_mem_nil, or_false] at hp
    rcases hp with rfl | rfl <;> exact ⟨by decide, by decide⟩
  · intro text ht p hp
    have htexts : textsOfItems plainConfig = ["${h}:${p}".toList] := rfl
    rw [htexts, List.mem_singleton] at ht
    subst ht
    rw [← Substring.contains_iff]
    simp only [plainParameters, List.mem_cons, List.not_mem_nil, or_false] at hp
    rcases hp with rfl | rfl <;> decide +kernel

/-- `a` is `${b}`, and `b` is `x`. -/
theorem nested_parameter_order : ¬ ∀ (env : Variables) (params : List (Text × Text)) (configs : List Json),
    (params.map Prod.fst).Nodup → OrdersAgree env params configs := by
  intro h
  have hagree := h (fun _ => none) [(['a'], ['$', '{', 'b', '}']), (['b'], ['x'])] [.string "${a}"] (by decide)
    [(['a'], ['$', '{', 'b', '}']), (['b'], ['x'])] [(['b'], ['x']), (['a'], ['$', '{', 'b', '}'])]
    (.refl _) (.swap _ _ _)
  obtain ⟨rounds, hout⟩ := (hagree.1 [.string "x"]).mp ⟨1, rfl⟩
  cases rounds with
  | zero => cases hout
  | succ rounds => cases hout

end Jaiba.Engine.Interpolation
