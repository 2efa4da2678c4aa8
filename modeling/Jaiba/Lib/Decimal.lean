import Mathlib.Algebra.Field.Rat
import Mathlib.Algebra.Order.Field.Rat
import Mathlib.Data.List.DropRight
import Mathlib.Tactic.FieldSimp

/-!
# Decimal numerals

A plain numeral is a sign, digits and perhaps a point with digits after it. `read`
gives the number that a text denotes, plain or with an exponent.
-/

namespace Jaiba.Lib

inductive Sign where
  | none
  | minus
  | plus
  deriving DecidableEq

def Sign.text : Sign → List Char
  | .none => []
  | .minus => ['-']
  | .plus => ['+']

def Sign.factor : Sign → ℤ
  | .minus => -1
  | _ => 1

/-- The number that a list of digits denotes. -/
def natValue (digits : List Char) : ℕ := Nat.ofDigitChars 10 digits 0

/-- A numeral has a digit before or after the point. -/
structure Numeral where
  sign : Sign
  whole : List Char
  fraction : Option (List Char)
  whole_digits : ∀ c ∈ whole, c.isDigit = true
  fraction_digits : ∀ c ∈ fraction.getD [], c.isDigit = true
  nonempty : whole ++ fraction.getD [] ≠ []

namespace Numeral

variable (n : Numeral)

def text : List Char :=
  n.sign.text ++ (n.whole ++ match n.fraction with
    | none => []
    | some digits => '.' :: digits)

def value : ℚ := n.sign.factor * natValue (n.whole ++ n.fraction.getD []) * 10 ^ (-(n.fraction.getD []).length : ℤ)

/-- An integer without a point. -/
def integer (sign : Sign) (digits : List Char) (hdigits : ∀ c ∈ digits, c.isDigit = true) (hne : digits ≠ []) :
    Numeral :=
  ⟨sign, digits, none, hdigits, fun _ hc => absurd hc List.not_mem_nil, by simpa using hne⟩

theorem integer_text {sign : Sign} {digits : List Char} (hdigits : ∀ c ∈ digits, c.isDigit = true)
    (hne : digits ≠ []) : (integer sign digits hdigits hne).text = sign.text ++ digits := by
  simp [text, integer]

theorem integer_value {sign : Sign} {digits : List Char} (hdigits : ∀ c ∈ digits, c.isDigit = true)
    (hne : digits ≠ []) : (integer sign digits hdigits hne).value = (sign.factor * natValue digits : ℤ) := by
  simp [value, integer]

end Numeral

/-! ### Reading -/

def readSign : List Char → Sign × List Char
  | '-' :: s => (.minus, s)
  | '+' :: s => (.plus, s)
  | s => (.none, s)

/-- What stands after the digits: nothing, or an exponent. -/
def readExponent : List Char → Option ℤ
  | [] => some 0
  | c :: s =>
    let digits := (readSign s).2
    if (c == 'e' || c == 'E') && !digits.isEmpty && digits.all Char.isDigit then
      some ((readSign s).1.factor * natValue digits)
    else none

/-- The digits after a point, and the rest. -/
def readFraction : List Char → List Char × List Char
  | '.' :: s => (s.takeWhile Char.isDigit, s.dropWhile Char.isDigit)
  | s => ([], s)

/-- The number that a text denotes, if it denotes one. -/
def read (text : List Char) : Option ℚ :=
  let sign := (readSign text).1
  let whole := (readSign text).2.takeWhile Char.isDigit
  let fraction := readFraction ((readSign text).2.dropWhile Char.isDigit)
  if (whole ++ fraction.1).isEmpty then none
  else (readExponent fraction.2).map fun exponent =>
    sign.factor * natValue (whole ++ fraction.1) * 10 ^ (exponent - fraction.1.length : ℤ)

theorem readSign_text (sign : Sign) {s : List Char} (hminus : s.head? ≠ some '-') (hplus : s.head? ≠ some '+') :
    readSign (sign.text ++ s) = (sign, s) := by
  cases sign with
  | minus => rfl
  | plus => rfl
  | none =>
    rw [Sign.text, List.nil_append]
    unfold readSign
    split
    · exact absurd rfl hminus
    · exact absurd rfl hplus
    · rfl

theorem takeWhile_digits {digits s : List Char} (hdigits : ∀ c ∈ digits, c.isDigit = true)
    (hs : s.takeWhile Char.isDigit = []) : (digits ++ s).takeWhile Char.isDigit = digits := by
  rw [List.takeWhile_append_of_pos hdigits, hs, List.append_nil]

theorem dropWhile_digits {digits s : List Char} (hdigits : ∀ c ∈ digits, c.isDigit = true)
    (hs : s.dropWhile Char.isDigit = s) : (digits ++ s).dropWhile Char.isDigit = s := by
  rw [List.dropWhile_append_of_pos hdigits, hs]

theorem Numeral.head_unsigned (n : Numeral) {c : Char} (hdigit : c.isDigit = false) (hpoint : c ≠ '.') :
    (n.whole ++ match n.fraction with
      | none => []
      | some digits => '.' :: digits).head? ≠ some c := by
  intro h
  cases hwhole : n.whole with
  | cons d ds =>
    rw [hwhole] at h
    have hd := n.whole_digits d (hwhole ▸ List.mem_cons_self)
    rw [Option.some.inj h, hdigit] at hd
    cases hd
  | nil =>
    rw [hwhole] at h
    cases hfraction : n.fraction with
    | none =>
      have hempty : n.whole ++ n.fraction.getD [] = [] := by rw [hwhole, hfraction]; rfl
      exact n.nonempty hempty
    | some digits =>
      rw [hfraction] at h
      exact hpoint (Option.some.inj h).symm

theorem read_parts {text whole fraction rest tail : List Char} {sign : Sign} (hsign : readSign text = (sign, rest))
    (hwhole : rest.takeWhile Char.isDigit = whole)
    (hfraction : readFraction (rest.dropWhile Char.isDigit) = (fraction, tail)) (hne : whole ++ fraction ≠ []) :
    read text = (readExponent tail).map fun exponent =>
      (sign.factor * natValue (whole ++ fraction) * 10 ^ (exponent - fraction.length : ℤ) : ℚ) := by
  have hempty : (whole ++ fraction).isEmpty = false := by
    rw [Bool.eq_false_iff, Ne, List.isEmpty_iff]
    exact hne
  simp only [read, hsign, hwhole, hfraction, hempty]
  rfl

/-- The text of a numeral denotes its value. -/
theorem read_text (n : Numeral) : read n.text = some n.value := by
  have hsign : readSign n.text = (n.sign, _) :=
    readSign_text n.sign (n.head_unsigned (by decide) (by decide)) (n.head_unsigned (by decide) (by decide))
  obtain ⟨sign, whole, fraction, hwhole, hfraction, hne⟩ := n
  cases fraction with
  | none =>
    have htail : readFraction ((whole ++ []).dropWhile Char.isDigit) = ([], []) := by
      rw [dropWhile_digits hwhole rfl]
      rfl
    rw [read_parts hsign (takeWhile_digits hwhole rfl) htail hne]
    simp [readExponent, Numeral.value]
  | some digits =>
    have hdigits : ∀ c ∈ digits, c.isDigit = true := hfraction
    have htail : readFraction ((whole ++ '.' :: digits).dropWhile Char.isDigit) = (digits, []) := by
      rw [dropWhile_digits hwhole rfl, readFraction, List.takeWhile_eq_self_iff.mpr hdigits,
        List.dropWhile_eq_nil_iff.mpr hdigits]
    rw [read_parts hsign (takeWhile_digits hwhole rfl) htail hne]
    simp [readExponent, Numeral.value]

theorem read_integer (sign : Sign) {digits : List Char} (hdigits : ∀ c ∈ digits, c.isDigit = true)
    (hne : digits ≠ []) : read (sign.text ++ digits) = some ((sign.factor * natValue digits : ℤ) : ℚ) := by
  rw [← Numeral.integer_text hdigits hne, read_text, Numeral.integer_value]

/-- The printed form of a natural number denotes it. -/
theorem read_toDigits (sign : Sign) (k : ℕ) : read (sign.text ++ Nat.toDigits 10 k) = some ((sign.factor * k : ℤ) : ℚ) := by
  have hdigits : ∀ c ∈ Nat.toDigits 10 k, c.isDigit = true := fun c hc =>
    Nat.isDigit_of_mem_toDigits (by decide) (by decide) hc
  have hne : Nat.toDigits 10 k ≠ [] := by
    intro h
    have hlength := @Nat.length_toDigits_pos 10 k
    rw [h] at hlength
    exact absurd hlength (by decide)
  rw [read_integer sign hdigits hne, natValue, Nat.ofDigitChars_ten_toDigits]

/-! ### Digits -/

theorem natValue_append (l m : List Char) : natValue (l ++ m) = 10 ^ m.length * natValue l + natValue m := by
  rw [natValue, Nat.ofDigitChars_append, Nat.ofDigitChars_eq_ofDigitChars_zero, natValue, natValue]

theorem natValue_zero_cons (l : List Char) : natValue ('0' :: l) = natValue l := by
  rw [natValue, Nat.ofDigitChars_cons]
  rfl

theorem natValue_eq_zero {l : List Char} (h : ∀ c ∈ l, c = '0') : natValue l = 0 := by
  rw [natValue, List.eq_replicate_of_mem h, Nat.ofDigitChars_replicate_zero, Nat.mul_zero]

/-- Zeros at the end of a fraction do not change the value. -/
theorem fraction_zeros (factor : ℤ) (l m : List Char) (h : ∀ c ∈ m, c = '0') (k : ℕ) :
    (factor * natValue (l ++ m) * 10 ^ (-(k + m.length : ℕ) : ℤ) : ℚ) = factor * natValue l * 10 ^ (-k : ℤ) := by
  rw [natValue_append, natValue_eq_zero h, Nat.add_zero, zpow_neg, zpow_neg, zpow_natCast, zpow_natCast, pow_add]
  push_cast
  field_simp

end Jaiba.Lib
