import Jaiba.Json

/-!
# Compact texts of JSON values

The compact text of a value, followed by the end of the text or by a delimiter,
is the text of no other value.  Tuples of values joined by a delimiter are told
apart by their texts.
-/

namespace Jaiba

/-! ### Numbers -/

/-- What the text of a number is made of. -/
def isNumeral (c : Char) : Bool := c.isDigit || c == '-' || c == '+' || c == '.' || c == 'e'

/-- `serde_json` keeps integers apart from floats, the text of which has a point or
an exponent. -/
def Number.Valid : Number → Prop
  | .posInt _ => True
  | .negInt n => n < 0
  | .float text => (∀ c ∈ text.toList, isNumeral c = true) ∧ ('.' ∈ text.toList ∨ 'e' ∈ text.toList)

theorem isDigit_of_mem_repr {n : ℕ} {c : Char} (h : c ∈ n.repr.toList) : c.isDigit = true := by
  rw [Nat.toList_repr] at h
  exact Nat.isDigit_of_mem_toDigits (by decide) (by decide) h

theorem mem_int_repr {n : ℤ} {c : Char} (h : c ∈ n.repr.toList) : c = '-' ∨ c.isDigit = true := by
  cases n with
  | ofNat n => exact .inr (isDigit_of_mem_repr h)
  | negSucc n =>
    have h' : c ∈ ("-" ++ (n + 1).repr).toList := h
    rw [String.toList_append, List.mem_append] at h'
    rcases h' with hsign | hdigit
    · exact .inl (List.mem_singleton.mp hsign)
    · exact .inr (isDigit_of_mem_repr hdigit)

theorem nat_repr_injective {n m : ℕ} (h : n.repr = m.repr) : n = m := by
  have hdigits : Nat.toDigits 10 n = Nat.toDigits 10 m := by
    rw [← Nat.toList_repr, ← Nat.toList_repr, h]
  rw [← Nat.ofDigitChars_ten_toDigits (n := n), ← Nat.ofDigitChars_ten_toDigits (n := m), hdigits]

theorem repr_ne_minus (n m : ℕ) : n.repr ≠ "-" ++ m.repr := by
  intro h
  have hmem : '-' ∈ n.repr.toList := by
    rw [h, String.toList_append]
    exact List.mem_append_left _ (by decide)
  exact absurd (isDigit_of_mem_repr hmem) (by decide)

theorem int_repr_injective {n m : ℤ} (h : n.repr = m.repr) : n = m := by
  cases n with
  | ofNat n =>
    cases m with
    | ofNat m => exact congrArg Int.ofNat (nat_repr_injective h)
    | negSucc m => exact absurd h (repr_ne_minus n (m + 1))
  | negSucc n =>
    cases m with
    | ofNat m => exact absurd h.symm (repr_ne_minus m (n + 1))
    | negSucc m =>
      have hrepr : (n + 1).repr = (m + 1).repr := String.append_right_inj "-" |>.mp h
      have hsucc := nat_repr_injective hrepr
      rw [Nat.succ.inj hsucc]

/-- The integer of a number that is none of the floats. -/
def Number.int? : Number → Option ℤ
  | .posInt n => some n
  | .negInt n => some n
  | .float _ => none

theorem Number.render_int {n : Number} {i : ℤ} (h : n.int? = some i) : n.render = i.repr := by
  cases n with
  | posInt n =>
    cases h
    rfl
  | negInt n =>
    cases h
    rfl
  | float text => cases h

theorem Number.isNumeral_render {n : Number} (hn : n.Valid) {c : Char} (hc : c ∈ n.render.toList) :
    isNumeral c = true := by
  cases hi : n.int? with
  | some i =>
    rw [Number.render_int hi] at hc
    rcases mem_int_repr hc with rfl | hdigit
    · rfl
    · simp [isNumeral, hdigit]
  | none =>
    cases n with
    | posInt n => cases hi
    | negInt n => cases hi
    | float text => exact hn.1 c hc

theorem Number.not_float_text {i : ℤ} {text : String} (hn : (Number.float text).Valid) :
    i.repr ≠ text := by
  rintro rfl
  rcases hn.2 with h | h
  · rcases mem_int_repr h with h | h <;> exact absurd h (by decide)
  · rcases mem_int_repr h with h | h <;> exact absurd h (by decide)

theorem int_repr_ne_nil (i : ℤ) : i.repr.toList ≠ [] := by
  cases i with
  | ofNat n =>
    rw [show (Int.ofNat n).repr = n.repr from rfl, Nat.toList_repr]
    exact Nat.toDigits_ne_nil
  | negSucc n =>
    rw [show (Int.negSucc n).repr = "-" ++ (n + 1).repr from rfl, String.toList_append]
    exact List.append_ne_nil_of_left_ne_nil (by decide) _

theorem Number.render_ne_nil {n : Number} (hn : n.Valid) : n.render.toList ≠ [] := by
  cases n with
  | posInt n => exact int_repr_ne_nil n
  | negInt n => exact int_repr_ne_nil n
  | float text =>
    rcases hn.2 with h | h <;> exact List.ne_nil_of_mem h

theorem Number.render_injective {n m : Number} (hn : n.Valid) (hm : m.Valid)
    (h : n.render = m.render) : n = m := by
  cases n with
  | posInt n =>
    cases m with
    | posInt m =>
      have hint : (n : ℤ) = m := int_repr_injective h
      rw [Int.ofNat_inj.mp hint]
    | negInt m =>
      have hint : (n : ℤ) = m := int_repr_injective h
      have hneg : m < 0 := hm
      omega
    | float text => exact absurd h (Number.not_float_text (i := n) hm)
  | negInt n =>
    cases m with
    | posInt m =>
      have hint : n = (m : ℤ) := int_repr_injective h
      have hneg : n < 0 := hn
      omega
    | negInt m => rw [int_repr_injective h]
    | float text => exact absurd h (Number.not_float_text hm)
  | float text =>
    cases m with
    | posInt m => exact absurd h.symm (Number.not_float_text (i := m) hn)
    | negInt m => exact absurd h.symm (Number.not_float_text hn)
    | float text' => exact congrArg Number.float h

namespace Json

/-! ### Strings -/

def hexValue (c : Char) : ℕ := if c.toNat < 58 then c.toNat - 48 else c.toNat - 87

/-- What follows a backslash. -/
def unescapeAfter : List Char → Option (Char × List Char)
  | 'b' :: rest => some (Char.ofNat 8, rest)
  | 't' :: rest => some (Char.ofNat 9, rest)
  | 'n' :: rest => some (Char.ofNat 10, rest)
  | 'f' :: rest => some (Char.ofNat 12, rest)
  | 'r' :: rest => some (Char.ofNat 13, rest)
  | 'u' :: _ :: _ :: a :: b :: rest => some (Char.ofNat (16 * hexValue a + hexValue b), rest)
  | c :: rest => some (c, rest)
  | [] => none

/-- The first character of an escaped text, and the text after it. -/
def unescape : List Char → Option (Char × List Char)
  | '\\' :: rest => unescapeAfter rest
  | c :: rest => some (c, rest)
  | [] => none

theorem hexValue_hexDigit : ∀ n < 32,
    16 * hexValue (hexDigit (n / 16)) + hexValue (hexDigit (n % 16)) = n := by decide

theorem unescape_escapeChar (c : Char) (rest : List Char) :
    unescape ((escapeChar c).toList ++ rest) = some (c, rest) := by
  have hback {n : ℕ} (h : c.toNat = n) : Char.ofNat n = c := by rw [← h, Char.ofNat_toNat]
  unfold escapeChar
  split_ifs with h1 h2 h3 h4 h5 h6 h7 h8
  · rw [h1]
    rfl
  · rw [h2]
    rfl
  · rw [← hback h3]
    rfl
  · rw [← hback h4]
    rfl
  · rw [← hback h5]
    rfl
  · rw [← hback h6]
    rfl
  · rw [← hback h7]
    rfl
  · have hhex := hexValue_hexDigit c.toNat h8
    simp only [String.toList_append, String.toList_singleton]
    show some (Char.ofNat (16 * hexValue (hexDigit (c.toNat / 16)) +
      hexValue (hexDigit (c.toNat % 16))), rest) = some (c, rest)
    rw [hhex, Char.ofNat_toNat]
  · rw [String.toList_singleton, List.singleton_append, unescape]
    exact h2

theorem escapeChar_head (c : Char) : ∃ d rest, (escapeChar c).toList = d :: rest ∧ d ≠ '"' := by
  have hread := unescape_escapeChar c []
  cases hlist : (escapeChar c).toList with
  | nil =>
    rw [hlist] at hread
    cases hread
  | cons d rest =>
    refine ⟨d, rest, rfl, ?_⟩
    rintro rfl
    rw [hlist] at hread
    have hc : '"' = c := (Prod.mk.inj (Option.some.inj hread)).1
    rw [← hc, show (escapeChar '"').toList = ['\\', '"'] from rfl] at hlist
    exact absurd (List.cons.inj hlist).1 (by decide)

theorem toList_quote (s : String) :
    (quote s).toList = '"' :: (s.toList.flatMap (fun c => (escapeChar c).toList) ++ ['"']) := by
  rw [quote, String.toList_append, String.toList_append, String.toList_join, List.flatMap_map]
  rfl

theorem escaped_inj {cs ds rest rest' : List Char}
    (h : cs.flatMap (fun c => (escapeChar c).toList) ++ '"' :: rest =
      ds.flatMap (fun c => (escapeChar c).toList) ++ '"' :: rest') : cs = ds ∧ rest = rest' := by
  induction cs generalizing ds with
  | nil =>
    cases ds with
    | nil => exact ⟨rfl, (List.cons.inj h).2⟩
    | cons d ds =>
      obtain ⟨e, tail, he, hne⟩ := escapeChar_head d
      rw [List.flatMap_cons, he] at h
      exact absurd (List.cons.inj h).1.symm hne
  | cons c cs ih =>
    cases ds with
    | nil =>
      obtain ⟨e, tail, he, hne⟩ := escapeChar_head c
      rw [List.flatMap_cons, he] at h
      exact absurd (List.cons.inj h).1 hne
    | cons d ds =>
      rw [List.flatMap_cons, List.flatMap_cons, List.append_assoc, List.append_assoc] at h
      have hread := congrArg unescape h
      rw [unescape_escapeChar, unescape_escapeChar] at hread
      obtain ⟨rfl, htail⟩ := Prod.mk.inj (Option.some.inj hread)
      obtain ⟨rfl, hrest⟩ := ih htail
      exact ⟨rfl, hrest⟩

theorem quote_inj {s t : String} {rest rest' : List Char}
    (h : (quote s).toList ++ rest = (quote t).toList ++ rest') : s = t ∧ rest = rest' := by
  rw [toList_quote, toList_quote, List.cons_append, List.cons_append, List.append_assoc,
    List.append_assoc] at h
  obtain ⟨hchars, hrest⟩ := escaped_inj (List.cons.inj h).2
  exact ⟨String.toList_inj.mp hchars, hrest⟩

/-! ### Values -/

mutual

def Valid : Json → Prop
  | .number n => n.Valid
  | .array items => ValidItems items
  | .object fields => ValidFields fields
  | _ => True

def ValidItems : List Json → Prop
  | [] => True
  | v :: rest => Valid v ∧ ValidItems rest

def ValidFields : List (String × Json) → Prop
  | [] => True
  | (_, v) :: rest => Valid v ∧ ValidFields rest

end

/-- Where the text of a value ends. -/
def isDelimiter (c : Char) : Bool := c == ',' || c == ']' || c == '}' || c == '\u001f'

def Ended (rest : List Char) : Prop := ∀ c ∈ rest.head?, isDelimiter c = true

/-- What the first character says about a value. -/
def leads (c : Char) : ℕ :=
  if c = 'n' then 0 else if c = 't' || c = 'f' then 1 else if c = '"' then 2
  else if c = '[' then 3 else if c = '{' then 4 else if isNumeral c then 5 else 6

def kind : Json → ℕ
  | .null => 0
  | .bool _ => 1
  | .string _ => 2
  | .array _ => 3
  | .object _ => 4
  | .number _ => 5

theorem leads_of_isNumeral {c : Char} (h : isNumeral c = true) : leads c = 5 := by
  have hne {d : Char} (hd : isNumeral d = false) : c ≠ d := by
    rintro rfl
    rw [h] at hd
    cases hd
  simp [leads, h, hne (show isNumeral 'n' = false from rfl), hne (show isNumeral 't' = false from rfl),
    hne (show isNumeral 'f' = false from rfl), hne (show isNumeral '"' = false from rfl),
    hne (show isNumeral '[' = false from rfl), hne (show isNumeral '{' = false from rfl)]

theorem toList_array (items : List Json) :
    (render (.array items)).toList = '[' :: ((renderItems items).toList ++ [']']) := by
  rw [render, String.toList_append, String.toList_append]
  rfl

theorem toList_object (fields : List (String × Json)) :
    (render (.object fields)).toList = '{' :: ((renderFields fields).toList ++ ['}']) := by
  rw [render, String.toList_append, String.toList_append]
  rfl

theorem render_leads {v : Json} (hv : Valid v) :
    ∃ c rest, (render v).toList = c :: rest ∧ leads c = kind v := by
  cases v with
  | null => exact ⟨'n', _, rfl, rfl⟩
  | bool b => cases b <;> exact ⟨_, _, rfl, rfl⟩
  | number n =>
    obtain ⟨c, rest, hc⟩ := List.exists_cons_of_ne_nil (Number.render_ne_nil hv)
    exact ⟨c, rest, hc, leads_of_isNumeral (Number.isNumeral_render hv (hc ▸ List.mem_cons_self))⟩
  | string s => exact ⟨'"', _, toList_quote s, rfl⟩
  | array items => exact ⟨'[', _, toList_array items, rfl⟩
  | object fields => exact ⟨'{', _, toList_object fields, rfl⟩

/-- Equal texts begin alike. -/
theorem kind_eq {v w : Json} (hv : Valid v) (hw : Valid w) {rest rest' : List Char}
    (h : (render v).toList ++ rest = (render w).toList ++ rest') : kind v = kind w := by
  obtain ⟨c, tail, hc, hkind⟩ := render_leads hv
  obtain ⟨d, tail', hd, hkind'⟩ := render_leads hw
  rw [hc, hd] at h
  rw [← hkind, ← hkind', (List.cons.inj h).1]

/-- No value begins with the character that closes an array or an object. -/
theorem render_ne_close {v : Json} (hv : Valid v) {c : Char} (hc : leads c = 6)
    {rest rest' : List Char} : (render v).toList ++ rest ≠ c :: rest' := by
  intro h
  obtain ⟨d, tail, hd, hkind⟩ := render_leads hv
  rw [hd] at h
  rw [(List.cons.inj h).1, hc] at hkind
  cases v <;> cases hkind

theorem not_isNumeral_of_ended {rest : List Char} (h : Ended rest) :
    ∀ c ∈ rest.head?, isNumeral c = false := by
  intro c hc
  have hd := h c hc
  simp only [isDelimiter, Bool.or_eq_true, beq_iff_eq] at hd
  rcases hd with ((rfl | rfl) | rfl) | rfl <;> rfl

theorem numeral_span {t t' rest rest' : List Char} (ht : ∀ c ∈ t, isNumeral c = true)
    (ht' : ∀ c ∈ t', isNumeral c = true) (hrest : ∀ c ∈ rest.head?, isNumeral c = false)
    (hrest' : ∀ c ∈ rest'.head?, isNumeral c = false) (h : t ++ rest = t' ++ rest') :
    t = t' ∧ rest = rest' := by
  induction t generalizing t' with
  | nil =>
    cases t' with
    | nil => exact ⟨rfl, h⟩
    | cons c t' =>
      have hc := hrest c (by rw [show rest = c :: (t' ++ rest') from h]; rfl)
      rw [ht' c List.mem_cons_self] at hc
      cases hc
  | cons c t ih =>
    cases t' with
    | nil =>
      have hc := hrest' c (by rw [show rest' = c :: (t ++ rest) from h.symm]; rfl)
      rw [ht c List.mem_cons_self] at hc
      cases hc
    | cons d t' =>
      obtain ⟨rfl, htail⟩ := List.cons.inj h
      obtain ⟨rfl, hrests⟩ := ih (fun x hx => ht x (List.mem_cons_of_mem c hx))
        (fun x hx => ht' x (List.mem_cons_of_mem c hx)) htail
      exact ⟨rfl, hrests⟩

theorem number_inj {n m : Number} (hn : n.Valid) (hm : m.Valid) {rest rest' : List Char}
    (hrest : Ended rest) (hrest' : Ended rest')
    (h : n.render.toList ++ rest = m.render.toList ++ rest') : n = m ∧ rest = rest' := by
  obtain ⟨htext, hrests⟩ := numeral_span (fun c => Number.isNumeral_render hn)
    (fun c => Number.isNumeral_render hm) (not_isNumeral_of_ended hrest)
    (not_isNumeral_of_ended hrest') h
  exact ⟨Number.render_injective hn hm (String.toList_inj.mp htext), hrests⟩

/-- The items after the first. -/
def moreItems : List Json → List Char
  | [] => []
  | v :: vs => ',' :: (renderItems (v :: vs)).toList

theorem toList_items (v : Json) (vs : List Json) :
    (renderItems (v :: vs)).toList = (render v).toList ++ moreItems vs := by
  cases vs with
  | nil => rw [renderItems, moreItems, List.append_nil]
  | cons w vs =>
    rw [renderItems, String.toList_append, String.toList_append, List.append_assoc]
    · rfl
    · intro h
      cases h

def moreFields : List (String × Json) → List Char
  | [] => []
  | e :: es => ',' :: (renderFields (e :: es)).toList

theorem toList_fields (k : String) (v : Json) (es : List (String × Json)) :
    (renderFields ((k, v) :: es)).toList =
      (quote k).toList ++ ':' :: ((render v).toList ++ moreFields es) := by
  cases es with
  | nil =>
    rw [renderFields, String.toList_append, String.toList_append, List.append_assoc, moreFields,
      List.append_nil]
    rfl
  | cons e es =>
    rw [renderFields]
    · simp only [String.toList_append, List.append_assoc]
      rfl
    · intro h
      cases h

theorem ended_moreItems (vs : List Json) (rest : List Char) : Ended (moreItems vs ++ ']' :: rest) := by
  cases vs with
  | nil =>
    intro c hc
    cases hc
    rfl
  | cons v vs =>
    intro c hc
    cases hc
    rfl

theorem ended_moreFields (es : List (String × Json)) (rest : List Char) :
    Ended (moreFields es ++ '}' :: rest) := by
  cases es with
  | nil =>
    intro c hc
    cases hc
    rfl
  | cons e es =>
    intro c hc
    cases hc
    rfl

mutual

/-- The text of a value tells the value, and where its text ends. -/
theorem render_inj : ∀ (v w : Json) {rest rest' : List Char}, Valid v → Valid w → Ended rest →
    Ended rest' → (render v).toList ++ rest = (render w).toList ++ rest' → v = w ∧ rest = rest'
  | v, w, rest, rest', hv, hw, hrest, hrest', h => by
    have hkind := kind_eq hv hw h
    cases v with
    | null =>
      cases w with
      | null => exact ⟨rfl, List.append_cancel_left h⟩
      | _ => cases hkind
    | bool b =>
      cases w with
      | bool b' =>
        have hbool : b = b' := by
          cases b <;> cases b' <;> first | rfl | cases (List.cons.inj h).1
        subst hbool
        exact ⟨rfl, List.append_cancel_left h⟩
      | _ => cases hkind
    | number n =>
      cases w with
      | number m =>
        obtain ⟨rfl, hrests⟩ := number_inj hv hw hrest hrest' h
        exact ⟨rfl, hrests⟩
      | _ => cases hkind
    | string s =>
      cases w with
      | string t =>
        obtain ⟨rfl, hrests⟩ := quote_inj h
        exact ⟨rfl, hrests⟩
      | _ => cases hkind
    | array items =>
      cases w with
      | array items' =>
        rw [toList_array, toList_array, List.cons_append, List.cons_append, List.append_assoc,
          List.append_assoc] at h
        obtain ⟨rfl, hrests⟩ := items_inj items items' hv hw (List.cons.inj h).2
        exact ⟨rfl, hrests⟩
      | _ => cases hkind
    | object fields =>
      cases w with
      | object fields' =>
        rw [toList_object, toList_object, List.cons_append, List.cons_append, List.append_assoc,
          List.append_assoc] at h
        obtain ⟨rfl, hrests⟩ := fields_inj fields fields' hv hw (List.cons.inj h).2
        exact ⟨rfl, hrests⟩
      | _ => cases hkind

theorem items_inj : ∀ (vs ws : List Json) {rest rest' : List Char}, ValidItems vs → ValidItems ws →
    (renderItems vs).toList ++ ']' :: rest = (renderItems ws).toList ++ ']' :: rest' →
      vs = ws ∧ rest = rest'
  | [], [], _, _, _, _, h => ⟨rfl, (List.cons.inj h).2⟩
  | [], w :: ws, rest, rest', _, hw, h => by
    rw [toList_items, List.append_assoc] at h
    exact absurd h.symm (render_ne_close hw.1 rfl)
  | v :: vs, [], rest, rest', hv, _, h => by
    rw [toList_items, List.append_assoc] at h
    exact absurd h (render_ne_close hv.1 rfl)
  | v :: vs, w :: ws, rest, rest', hv, hw, h => by
    rw [toList_items, toList_items, List.append_assoc, List.append_assoc] at h
    obtain ⟨rfl, htail⟩ := render_inj v w hv.1 hw.1 (ended_moreItems vs rest)
      (ended_moreItems ws rest') h
    cases vs with
    | nil =>
      cases ws with
      | nil => exact ⟨rfl, (List.cons.inj htail).2⟩
      | cons w ws => exact absurd (List.cons.inj htail).1 (by decide)
    | cons v' vs =>
      cases ws with
      | nil => exact absurd (List.cons.inj htail).1 (by decide)
      | cons w ws =>
        obtain ⟨hitems, hrests⟩ := items_inj (v' :: vs) (w :: ws) hv.2 hw.2 (List.cons.inj htail).2
        exact ⟨congrArg (List.cons v) hitems, hrests⟩

theorem fields_inj : ∀ (es fs : List (String × Json)) {rest rest' : List Char}, ValidFields es →
    ValidFields fs →
    (renderFields es).toList ++ '}' :: rest = (renderFields fs).toList ++ '}' :: rest' →
      es = fs ∧ rest = rest'
  | [], [], _, _, _, _, h => ⟨rfl, (List.cons.inj h).2⟩
  | [], (k, w) :: fs, rest, rest', _, _, h => by
    rw [toList_fields, toList_quote] at h
    exact absurd (List.cons.inj h).1 (by decide)
  | (k, v) :: es, [], rest, rest', _, _, h => by
    rw [toList_fields, toList_quote] at h
    exact absurd (List.cons.inj h).1 (by decide)
  | (k, v) :: es, (l, w) :: fs, rest, rest', hv, hw, h => by
    rw [toList_fields, toList_fields, List.append_assoc, List.append_assoc] at h
    obtain ⟨rfl, hvalue⟩ := quote_inj h
    rw [List.cons_append, List.cons_append, List.append_assoc, List.append_assoc] at hvalue
    have htext := (List.cons.inj hvalue).2
    obtain ⟨rfl, htail⟩ := render_inj v w hv.1 hw.1 (ended_moreFields es rest)
      (ended_moreFields fs rest') htext
    cases es with
    | nil =>
      cases fs with
      | nil => exact ⟨rfl, (List.cons.inj htail).2⟩
      | cons f fs => exact absurd (List.cons.inj htail).1 (by decide)
    | cons e es =>
      cases fs with
      | nil => exact absurd (List.cons.inj htail).1 (by decide)
      | cons f fs =>
        obtain ⟨hfields, hrests⟩ := fields_inj (e :: es) (f :: fs) hv.2 hw.2 (List.cons.inj htail).2
        exact ⟨congrArg (List.cons (k, v)) hfields, hrests⟩

end

theorem ended_nil : Ended [] := by
  intro c hc
  cases hc

theorem ended_separator (rest : List Char) : Ended (['\u001f'] ++ rest) := by
  intro c hc
  cases hc
  rfl

/-- Tuples of one length, joined by the unit separator. -/
theorem intercalate_inj {vs ws : List Json} (hlen : vs.length = ws.length) (hv : ∀ v ∈ vs, Valid v)
    (hw : ∀ w ∈ ws, Valid w)
    (h : "\u001f".intercalate (vs.map render) = "\u001f".intercalate (ws.map render)) : vs = ws := by
  have hchars : ['\u001f'].intercalate (vs.map fun v => (render v).toList) =
      ['\u001f'].intercalate (ws.map fun w => (render w).toList) := by
    have htext := congrArg String.toList h
    rw [String.toList_intercalate, String.toList_intercalate, List.map_map, List.map_map] at htext
    exact htext
  clear h
  induction vs generalizing ws with
  | nil =>
    cases ws with
    | nil => rfl
    | cons w ws => cases hlen
  | cons v vs ih =>
    cases ws with
    | nil => cases hlen
    | cons w ws =>
      have hvalid := hv v List.mem_cons_self
      have hvalid' := hw w List.mem_cons_self
      cases vs with
      | nil =>
        cases ws with
        | nil =>
          rw [List.map_singleton, List.map_singleton, List.intercalate_singleton,
            List.intercalate_singleton, ← List.append_nil (render v).toList,
            ← List.append_nil (render w).toList] at hchars
          rw [(render_inj v w hvalid hvalid' ended_nil ended_nil hchars).1]
        | cons w' ws => cases hlen
      | cons v' vs =>
        cases ws with
        | nil => cases hlen
        | cons w' ws =>
          rw [List.map_cons, List.map_cons, List.map_cons, List.map_cons, List.intercalate_cons_cons,
            List.intercalate_cons_cons, List.append_assoc, List.append_assoc] at hchars
          obtain ⟨rfl, htail⟩ := render_inj v w hvalid hvalid' (ended_separator _) (ended_separator _)
            hchars
          rw [ih (Nat.succ.inj hlen) (fun x hx => hv x (List.mem_cons_of_mem v hx))
            (fun x hx => hw x (List.mem_cons_of_mem v hx)) (List.append_cancel_left htail)]

end Json

end Jaiba
