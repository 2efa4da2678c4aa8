import Jaiba.Json
import Jaiba.Lib.Decimal

/-!
# Decimal numbers of a database (`connectors/values.rs`)

`number_value` turns a decimal text into an integer, a float or, where neither
holds it, the text. Floats are a parameter: what `f64` parses, displays and
`serde_json` prints.
-/

namespace Jaiba.Connectors
open Jaiba.Lib

/-- `f64` as far as the code uses it. -/
structure Floats (F : Type) where
  /-- `str::parse::<f64>` -/
  parse : List Char → Option F
  isFinite : F → Bool
  /-- `to_string` -/
  display : F → String
  /-- the text that `serde_json` prints -/
  json : F → String
  /-- the shortest decimal that is parsed as this float -/
  shortest : F → ℚ

/-! ### Integers -/

/-- The digits of an integer: at least one, and nothing else. -/
def parseDigits (digits : List Char) : Option ℕ :=
  if !digits.isEmpty && digits.all Char.isDigit then some (natValue digits) else none

/-- `str::parse::<i64>`. -/
def parseI64 (text : List Char) : Option ℤ :=
  ((parseDigits (readSign text).2).map fun n : ℕ => (readSign text).1.factor * n).filter fun n : ℤ =>
    -9223372036854775808 ≤ n && n ≤ 9223372036854775807

/-- `str::parse::<u64>`: a plus is admitted. -/
def parseU64 (text : List Char) : Option ℕ :=
  if (readSign text).1 = .minus then none
  else (parseDigits (readSign text).2).filter fun n => n ≤ 18446744073709551615

/-- `Value::from(i64)`. -/
def fromI64 (n : ℤ) : Json := if 0 ≤ n then .number (.posInt n.toNat) else .number (.negInt n)

/-! ### The function -/

/-- A digit in front of a point that has none. -/
def pointed : List Char → List Char
  | '-' :: '.' :: rest => '-' :: '0' :: '.' :: rest
  | '.' :: rest => '0' :: '.' :: rest
  | text => text

/-- The text without the zeros at the end of its fraction. -/
def normalized (text : List Char) : List Char :=
  let text := pointed text
  if text.contains '.' && !(text.contains 'e' || text.contains 'E') then
    let trimmed := (text.rdropWhile (· == '0')).rdropWhile (· == '.')
    if trimmed == ['-', '0'] || trimmed == [] then ['0'] else trimmed
  else text

variable {F : Type} (f : Floats F)

/-- `Number::from_f64`. -/
def fromF64 (x : F) : Option Number := if f.isFinite x then some (.float (f.json x)) else none

def numberValue (text : List Char) : Json :=
  let normalized := normalized text
  match parseI64 normalized with
  | some integer => fromI64 integer
  | none =>
    match parseU64 normalized with
    | some integer => .number (.posInt integer)
    | none =>
      match f.parse normalized with
      | none => .string (String.ofList normalized)
      | some float =>
        if f.isFinite float && f.display float == String.ofList normalized then
          match fromF64 f float with
          | some number => .number number
          | none => .string (String.ofList normalized)
        else .string (String.ofList normalized)

/-- The text of a number or of a string. -/
def printed : Json → List Char
  | .number n => n.render.toList
  | .string s => s.toList
  | _ => []

/-! ### What is printed -/

theorem parseDigits_some {digits : List Char} {n : ℕ} (h : parseDigits digits = some n) :
    digits ≠ [] ∧ (∀ c ∈ digits, c.isDigit = true) ∧ n = natValue digits := by
  rw [parseDigits] at h
  split at h
  next hdigits =>
    rw [Bool.and_eq_true, Bool.not_eq_true', List.all_eq_true] at hdigits
    refine ⟨?_, hdigits.2, (Option.some.inj h).symm⟩
    rintro rfl
    cases hdigits.1
  next => cases h

theorem readSign_split (text : List Char) : (readSign text).1.text ++ (readSign text).2 = text := by
  unfold readSign
  split <;> rfl

theorem read_of_parseDigits {text : List Char} {n : ℕ} (h : parseDigits (readSign text).2 = some n) :
    read text = some (((readSign text).1.factor * n : ℤ) : ℚ) := by
  obtain ⟨hne, hdigits, rfl⟩ := parseDigits_some h
  rw [← read_integer (readSign text).1 hdigits hne, readSign_split]

theorem read_of_parseI64 {text : List Char} {n : ℤ} (h : parseI64 text = some n) : read text = some (n : ℚ) := by
  obtain ⟨hmap, -⟩ := Option.filter_eq_some_iff.mp h
  obtain ⟨k, hk, rfl⟩ := Option.map_eq_some_iff.mp hmap
  exact read_of_parseDigits hk

theorem read_of_parseU64 {text : List Char} {n : ℕ} (h : parseU64 text = some n) : read text = some (n : ℚ) := by
  rw [parseU64] at h
  split at h
  next => cases h
  next hminus =>
    obtain ⟨hdigits, -⟩ := Option.filter_eq_some_iff.mp h
    have hfactor : (readSign text).1.factor = 1 := by
      cases hsign : (readSign text).1 with
      | minus => exact absurd hsign hminus
      | _ => rfl
    rw [read_of_parseDigits hdigits, hfactor]
    push_cast
    rw [one_mul]

theorem read_posInt (n : ℕ) : read (printed (.number (.posInt n))) = some (n : ℚ) := by
  have htext : printed (.number (.posInt n)) = Sign.text .none ++ Nat.toDigits 10 n := Nat.toList_repr
  rw [htext, read_toDigits]
  simp [Sign.factor]

theorem read_fromI64 (n : ℤ) : read (printed (fromI64 n)) = some (n : ℚ) := by
  rw [fromI64]
  split
  next hn =>
    obtain ⟨k, rfl⟩ := Int.eq_ofNat_of_zero_le hn
    exact read_posInt k
  next hn =>
    obtain ⟨k, rfl⟩ := Int.eq_negSucc_of_lt_zero (not_le.mp hn)
    have htext : printed (.number (.negInt (Int.negSucc k))) = Sign.text .minus ++ Nat.toDigits 10 (k + 1) := by
      have hprinted : printed (.number (.negInt (Int.negSucc k))) = ("-" ++ (k + 1).repr).toList := rfl
      rw [hprinted, String.toList_append, Nat.toList_repr]
      rfl
    rw [htext, read_toDigits, Sign.factor, Int.negSucc_eq]
    push_cast
    rw [neg_one_mul]

/-- Whatever the type of the value, it denotes what the normalized text denotes. -/
theorem read_numberValue (hdisplay : ∀ x, f.isFinite x = true → read (f.display x).toList = some (f.shortest x))
    (hjson : ∀ x, f.isFinite x = true → read (f.json x).toList = some (f.shortest x)) (text : List Char) :
    read (printed (numberValue f text)) = read (normalized text) := by
  have hstring : printed (.string (String.ofList (normalized text))) = normalized text := String.toList_ofList
  rw [numberValue]
  cases hi : parseI64 (normalized text) with
  | some n => exact (read_fromI64 n).trans (read_of_parseI64 hi).symm
  | none =>
    cases hu : parseU64 (normalized text) with
    | some n => exact (read_posInt n).trans (read_of_parseU64 hu).symm
    | none =>
      cases hp : f.parse (normalized text) with
      | none => exact congrArg read hstring
      | some x =>
        dsimp only
        split
        next hx =>
          rw [Bool.and_eq_true, beq_iff_eq] at hx
          rw [fromF64, if_pos hx.1]
          have hsame : (f.display x).toList = normalized text := by rw [hx.2, String.toList_ofList]
          rw [← hsame, hdisplay x hx.1]
          exact hjson x hx.1
        next => exact congrArg read hstring

/-! ### The normalized text -/

theorem pointed_eq_self {text : List Char} (h : '.' ∉ text) : pointed text = text := by
  unfold pointed
  split
  · exact absurd (List.mem_cons_of_mem _ List.mem_cons_self) h
  · exact absurd List.mem_cons_self h
  · rfl

theorem normalized_eq_self {text : List Char} (h : '.' ∉ text) : normalized text = text := by
  have hpoint : text.contains '.' = false := by
    rw [Bool.eq_false_iff, Ne, List.contains_iff_mem]
    exact h
  rw [normalized, pointed_eq_self h, hpoint]
  rfl

/-- The digits in front of the point, a zero where there are none and no plus. -/
def wholePart (sign : Sign) (whole : List Char) : List Char :=
  if whole = [] ∧ sign ≠ .plus then ['0'] else whole

theorem pointed_text (sign : Sign) {whole fraction : List Char} (hwhole : ∀ c ∈ whole, c.isDigit = true) :
    pointed (sign.text ++ (whole ++ '.' :: fraction)) = sign.text ++ (wholePart sign whole ++ '.' :: fraction) := by
  cases whole with
  | nil => cases sign <;> rfl
  | cons c whole =>
    have hc := hwhole c List.mem_cons_self
    have hminus : c ≠ '-' := by rintro rfl; cases hc
    have hpoint : c ≠ '.' := by rintro rfl; cases hc
    have hpart : wholePart sign (c :: whole) = c :: whole := if_neg fun h => List.cons_ne_nil _ _ h.1
    rw [hpart]
    unfold pointed
    split
    next rest heq =>
      cases sign with
      | minus => exact absurd (List.cons.inj (List.cons.inj heq).2).1 hpoint
      | plus => exact absurd (List.cons.inj heq).1 (by decide)
      | none => exact absurd (List.cons.inj heq).1 hminus
    next rest heq =>
      cases sign with
      | minus => exact absurd (List.cons.inj heq).1 (by decide)
      | plus => exact absurd (List.cons.inj heq).1 (by decide)
      | none => exact absurd (List.cons.inj heq).1 hpoint
    next => rfl

theorem rdropWhile_append_cons {α : Type} (p : α → Bool) (l m : List α) {a : α} (ha : p a = false) :
    (l ++ a :: m).rdropWhile p = l ++ a :: m.rdropWhile p := by
  induction m using List.reverseRecOn with
  | nil => rw [List.rdropWhile_concat_neg p l a (by simp [ha]), List.rdropWhile_nil]
  | append_singleton m b ih =>
    have hsplit : l ++ a :: (m ++ [b]) = (l ++ a :: m) ++ [b] := by simp
    rw [hsplit]
    by_cases hb : p b = true
    · rw [List.rdropWhile_concat_pos p _ b hb, List.rdropWhile_concat_pos p _ b hb, ih]
    · rw [List.rdropWhile_concat_neg p _ b hb, List.rdropWhile_concat_neg p _ b hb, hsplit]

theorem trimmed_text {before fraction : List Char} (hfraction : ∀ c ∈ fraction, c.isDigit = true)
    (hbefore : '.' ∉ before) :
    ((before ++ '.' :: fraction).rdropWhile (· == '0')).rdropWhile (· == '.') =
      if fraction.rdropWhile (· == '0') = [] then before
      else before ++ '.' :: fraction.rdropWhile (· == '0') := by
  rw [rdropWhile_append_cons _ _ _ (by decide)]
  split
  next hzeros =>
    rw [hzeros, List.rdropWhile_concat_pos _ _ _ (by decide), List.rdropWhile_eq_self_iff]
    intro hne hlast
    exact hbefore (beq_iff_eq.mp hlast ▸ List.getLast_mem hne)
  next hkept =>
    rw [List.rdropWhile_eq_self_iff]
    intro hne hlast
    rw [List.getLast_append_of_ne_nil _ (List.cons_ne_nil _ _), List.getLast_cons hkept] at hlast
    have hmem := (List.rdropWhile_prefix (· == '0') fraction).subset (List.getLast_mem hkept)
    have hdigit := hfraction _ hmem
    rw [beq_iff_eq.mp hlast] at hdigit
    cases hdigit

theorem not_mem_of_digits {digits : List Char} {c : Char} (h : ∀ d ∈ digits, d.isDigit = true) (hc : c.isDigit = false) :
    c ∉ digits := by
  intro hmem
  rw [h c hmem] at hc
  cases hc

theorem not_mem_sign {c : Char} (sign : Sign) (hminus : c ≠ '-') (hplus : c ≠ '+') : c ∉ sign.text := by
  cases sign with
  | none => exact List.not_mem_nil
  | minus => exact fun h => hminus (List.mem_singleton.mp h)
  | plus => exact fun h => hplus (List.mem_singleton.mp h)

theorem wholePart_digits (sign : Sign) {whole : List Char} (h : ∀ c ∈ whole, c.isDigit = true) :
    ∀ c ∈ wholePart sign whole, c.isDigit = true := by
  rw [wholePart]
  split
  · exact fun c hc => List.mem_singleton.mp hc ▸ rfl
  · exact h

theorem normalized_pointed (sign : Sign) {whole fraction : List Char} (hwhole : ∀ c ∈ whole, c.isDigit = true)
    (hfraction : ∀ c ∈ fraction, c.isDigit = true) :
    normalized (sign.text ++ (whole ++ '.' :: fraction)) =
      let trimmed := if fraction.rdropWhile (· == '0') = [] then sign.text ++ wholePart sign whole
        else sign.text ++ wholePart sign whole ++ '.' :: fraction.rdropWhile (· == '0')
      if trimmed == ['-', '0'] || trimmed == [] then ['0'] else trimmed := by
  have hpart := wholePart_digits sign hwhole
  have hletter : ∀ c : Char, c.isDigit = false → c ≠ '-' → c ≠ '+' → c ≠ '.' →
      c ∉ sign.text ++ (wholePart sign whole ++ '.' :: fraction) := by
    intro c hdigit hminus hplus hpoint hmem
    rcases List.mem_append.mp hmem with hmem | hmem
    · exact not_mem_sign sign hminus hplus hmem
    · rcases List.mem_append.mp hmem with hmem | hmem
      · exact not_mem_of_digits hpart hdigit hmem
      · rcases List.mem_cons.mp hmem with rfl | hmem
        · exact hpoint rfl
        · exact not_mem_of_digits hfraction hdigit hmem
  have hplain : ((sign.text ++ (wholePart sign whole ++ '.' :: fraction)).contains '.' &&
      !((sign.text ++ (wholePart sign whole ++ '.' :: fraction)).contains 'e' ||
        (sign.text ++ (wholePart sign whole ++ '.' :: fraction)).contains 'E')) = true := by
    have hpoint : (sign.text ++ (wholePart sign whole ++ '.' :: fraction)).contains '.' = true := by
      rw [List.contains_iff_mem]
      exact List.mem_append_right _ (List.mem_append_right _ List.mem_cons_self)
    have he : ∀ c : Char, c.isDigit = false → c ≠ '-' → c ≠ '+' → c ≠ '.' →
        (sign.text ++ (wholePart sign whole ++ '.' :: fraction)).contains c = false := by
      intro c hdigit hminus hplus hc
      rw [Bool.eq_false_iff, Ne, List.contains_iff_mem]
      exact hletter c hdigit hminus hplus hc
    rw [hpoint, he 'e' (by decide) (by decide) (by decide) (by decide),
      he 'E' (by decide) (by decide) (by decide) (by decide)]
    rfl
  have hbefore : '.' ∉ sign.text ++ wholePart sign whole := by
    rw [List.mem_append, not_or]
    exact ⟨not_mem_sign sign (by decide) (by decide), not_mem_of_digits hpart (by decide)⟩
  rw [normalized, pointed_text sign hwhole, hplain, if_pos rfl, ← List.append_assoc, trimmed_text hfraction hbefore]

/-! ### Numerals -/

/-- A plus, no digit before the point and nothing but zeros after it. -/
def Lost (n : Numeral) : Prop :=
  n.sign = .plus ∧ n.whole = [] ∧ ∀ c ∈ n.fraction.getD [], c = '0'

theorem natValue_wholePart (sign : Sign) (whole rest : List Char) :
    natValue (wholePart sign whole ++ rest) = natValue (whole ++ rest) := by
  rw [wholePart]
  split
  next h =>
    rw [h.1]
    exact natValue_zero_cons rest
  next => rfl

theorem zeros_iff {fraction : List Char} :
    fraction.rdropWhile (· == '0') = [] ↔ ∀ c ∈ fraction, c = '0' := by
  rw [List.rdropWhile_eq_nil_iff]
  simp only [beq_iff_eq]

theorem value_eq (sign : Sign) {whole fraction : List Char} (k : ℕ) (kept : List Char)
    (hkept : ∃ zeros, fraction = kept ++ zeros ∧ ∀ c ∈ zeros, c = '0') (hk : kept.length = k) :
    (sign.factor * natValue (whole ++ fraction) * 10 ^ (-fraction.length : ℤ) : ℚ) =
      sign.factor * natValue (wholePart sign whole ++ kept) * 10 ^ (-k : ℤ) := by
  obtain ⟨zeros, rfl, hzeros⟩ := hkept
  rw [natValue_wholePart, ← List.append_assoc, List.length_append, hk]
  exact fraction_zeros sign.factor (whole ++ kept) zeros hzeros k

theorem exists_zeros (fraction : List Char) :
    ∃ zeros, fraction = fraction.rdropWhile (· == '0') ++ zeros ∧ ∀ c ∈ zeros, c = '0' :=
  ⟨fraction.rtakeWhile (· == '0'), List.rdropWhile_append_rtakeWhile.symm,
    fun _ hc => beq_iff_eq.mp (@List.mem_rtakeWhile_imp _ (· == '0') fraction _ hc)⟩

/-- A negative zero is written without its sign. -/
theorem read_unsigned_zero {trimmed : List Char} (h : read trimmed ≠ none) :
    read (if trimmed == ['-', '0'] || trimmed == [] then ['0'] else trimmed) = read trimmed := by
  have hdigit : ∀ c ∈ ['0'], c.isDigit = true := List.all_eq_true.mp rfl
  have hvalue : natValue ['0'] = 0 := natValue_eq_zero fun c hc => List.mem_singleton.mp hc
  have hzero : read ['0'] = some 0 := by
    have hread := read_integer .none hdigit (List.cons_ne_nil _ _)
    simpa [Sign.text, hvalue] using hread
  have hminus : read ['-', '0'] = some 0 := by
    have hread := read_integer .minus hdigit (List.cons_ne_nil _ _)
    simpa [Sign.text, hvalue] using hread
  split
  next hcase =>
    rw [Bool.or_eq_true, beq_iff_eq, beq_iff_eq] at hcase
    rcases hcase with rfl | rfl
    · rw [hzero, hminus]
    · exact absurd rfl h
  next => rfl

/-- The normalized text of a numeral denotes its value. -/
theorem read_normalized {n : Numeral} (h : ¬ Lost n) : read (normalized n.text) = some n.value := by
  cases hfraction : n.fraction with
  | none =>
    have hpoint : '.' ∉ n.text := by
      rw [Numeral.text, hfraction, List.append_nil, List.mem_append, not_or]
      exact ⟨not_mem_sign n.sign (by decide) (by decide), not_mem_of_digits n.whole_digits (by decide)⟩
    rw [normalized_eq_self hpoint, read_text]
  | some fraction =>
    have hdigits : ∀ c ∈ fraction, c.isDigit = true := by
      have hall := n.fraction_digits
      rwa [hfraction] at hall
    have hpart := wholePart_digits n.sign n.whole_digits
    have hkept : ∀ c ∈ fraction.rdropWhile (· == '0'), c.isDigit = true :=
      fun c hc => hdigits c ((List.rdropWhile_prefix _ _).subset hc)
    have htext : n.text = n.sign.text ++ (n.whole ++ '.' :: fraction) := by rw [Numeral.text, hfraction]
    have hvalue : n.value = n.sign.factor * natValue (n.whole ++ fraction) * 10 ^ (-fraction.length : ℤ) := by
      rw [Numeral.value, hfraction]
      rfl
    rw [htext, normalized_pointed n.sign n.whole_digits hdigits]
    dsimp only
    -- without the sign of a zero, what is left is a numeral of the same value
    suffices hread : read (if fraction.rdropWhile (· == '0') = [] then n.sign.text ++ wholePart n.sign n.whole
        else n.sign.text ++ wholePart n.sign n.whole ++ '.' :: fraction.rdropWhile (· == '0')) = some n.value by
      rw [read_unsigned_zero (hread ▸ Option.some_ne_none _), hread]
    split
    next hzeros =>
      have hne : wholePart n.sign n.whole ≠ [] := by
        rw [wholePart]
        split
        next => exact List.cons_ne_nil _ _
        next hplus =>
          intro hwhole
          refine h ⟨by_contra fun hsign => hplus ⟨hwhole, hsign⟩, hwhole, ?_⟩
          rw [hfraction]
          exact zeros_iff.mp hzeros
      have heq := @value_eq n.sign n.whole fraction 0 [] ⟨fraction, rfl, zeros_iff.mp hzeros⟩ rfl
      rw [read_integer n.sign hpart hne, hvalue, heq, List.append_nil]
      simp
    next hrest =>
      let m : Numeral := ⟨n.sign, wholePart n.sign n.whole, some (fraction.rdropWhile (· == '0')), hpart, hkept,
        List.append_ne_nil_of_right_ne_nil _ hrest⟩
      have hm : n.sign.text ++ wholePart n.sign n.whole ++ '.' :: fraction.rdropWhile (· == '0') = m.text :=
        List.append_assoc _ _ _
      rw [hm, read_text, hvalue, value_eq n.sign _ _ (exists_zeros fraction) rfl]
      rfl

/-- Of a lost numeral only the sign is left. -/
theorem read_normalized_lost {n : Numeral} (h : Lost n) : read (normalized n.text) = none := by
  obtain ⟨hsign, hwhole, hzeros⟩ := h
  cases hfraction : n.fraction with
  | none =>
    have hempty : n.whole ++ n.fraction.getD [] = [] := by rw [hwhole, hfraction]; rfl
    exact absurd hempty n.nonempty
  | some fraction =>
    have hdigits : ∀ c ∈ fraction, c.isDigit = true := by
      have hall := n.fraction_digits
      rwa [hfraction] at hall
    rw [hfraction] at hzeros
    have htext : n.text = n.sign.text ++ (n.whole ++ '.' :: fraction) := by rw [Numeral.text, hfraction]
    have hnone : fraction.rdropWhile (· == '0') = [] := zeros_iff.mpr hzeros
    rw [htext, normalized_pointed n.sign n.whole_digits hdigits, hnone, hsign, hwhole]
    rfl

/-- The printed value denotes the decimal number of the text exactly when the text is not a plus
and a point with nothing but zeros. -/
theorem number_value_exact_iff {F : Type} (f : Floats F)
    (hdisplay : ∀ x, f.isFinite x = true → read (f.display x).toList = some (f.shortest x))
    (hjson : ∀ x, f.isFinite x = true → read (f.json x).toList = some (f.shortest x)) (n : Numeral) :
    read (printed (numberValue f n.text)) = some n.value ↔ ¬ Lost n := by
  rw [read_numberValue f hdisplay hjson]
  constructor
  · intro h hlost
    rw [read_normalized_lost hlost] at h
    cases h
  · exact read_normalized

/-- A `f64` that is `0.1`. -/
def tenth : Floats Unit where
  parse text := if text = ['0', '.', '1'] then some () else none
  isFinite _ := true
  display _ := String.ofList ['0', '.', '1']
  json _ := String.ofList ['0', '.', '1']
  shortest _ := 1 / 10

/-- `.10`. -/
def tenthText : Numeral :=
  ⟨.none, [], some ['1', '0'], List.all_eq_true.mp rfl, List.all_eq_true.mp rfl, List.cons_ne_nil _ _⟩

theorem read_tenth : read (String.ofList ['0', '.', '1']).toList = some (1 / 10) := by
  have htext : (String.ofList ['0', '.', '1']).toList =
      (⟨.none, ['0'], some ['1'], List.all_eq_true.mp rfl, List.all_eq_true.mp rfl, List.cons_ne_nil _ _⟩ : Numeral).text :=
    String.toList_ofList
  rw [htext, read_text]
  decide +kernel

theorem number_value_exact_iff_tenth :
    read (printed (numberValue tenth tenthText.text)) = some tenthText.value ↔ ¬ Lost tenthText :=
  number_value_exact_iff tenth (fun _ _ => read_tenth) (fun _ _ => read_tenth) tenthText

/-- `+.0`. -/
def plusZero : Numeral :=
  ⟨.plus, [], some ['0'], List.all_eq_true.mp rfl, List.all_eq_true.mp rfl, List.cons_ne_nil _ _⟩

theorem number_value_plus_zero : ¬ ∀ (F : Type) (f : Floats F),
    (∀ x, f.isFinite x = true → read (f.display x).toList = some (f.shortest x)) →
    (∀ x, f.isFinite x = true → read (f.json x).toList = some (f.shortest x)) →
    ∀ n : Numeral, read (printed (numberValue f n.text)) = some n.value := by
  intro h
  have hexact := h Unit tenth (fun _ _ => read_tenth) (fun _ _ => read_tenth) plusZero
  have hlost : Lost plusZero := ⟨rfl, rfl, fun c hc => List.mem_singleton.mp hc⟩
  rw [read_numberValue tenth (fun _ _ => read_tenth) (fun _ _ => read_tenth), read_normalized_lost hlost] at hexact
  cases hexact

end Jaiba.Connectors
