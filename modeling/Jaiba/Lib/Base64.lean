import Jaiba.Lib.Bytes

/-!
# Base64 (RFC 4648)

Three bytes are four letters of six bits each. A shorter last group is filled
with zero bits and padded; a decoder refuses other letters, padding before the
end and padding bits that are not zero.
-/

namespace Jaiba.Lib.Base64

def alphabet : List Char :=
  ['A', 'B', 'C', 'D', 'E', 'F', 'G', 'H', 'I', 'J', 'K', 'L', 'M', 'N', 'O', 'P',
   'Q', 'R', 'S', 'T', 'U', 'V', 'W', 'X', 'Y', 'Z', 'a', 'b', 'c', 'd', 'e', 'f',
   'g', 'h', 'i', 'j', 'k', 'l', 'm', 'n', 'o', 'p', 'q', 'r', 's', 't', 'u', 'v',
   'w', 'x', 'y', 'z', '0', '1', '2', '3', '4', '5', '6', '7', '8', '9', '+', '/']

def pad : Char := '='

/-- The letter of six bits. -/
def letter (n : ℕ) : Char := alphabet.getD n pad

def value? (c : Char) : Option ℕ := alphabet.idxOf? c

def encode : Bytes → List Char
  | [] => []
  | [a] => [letter (a.toNat / 4), letter (a.toNat % 4 * 16), pad, pad]
  | [a, b] => [letter (a.toNat / 4), letter (a.toNat % 4 * 16 + b.toNat / 16), letter (b.toNat % 16 * 4), pad]
  | a :: b :: c :: rest =>
    letter (a.toNat / 4) :: letter (a.toNat % 4 * 16 + b.toNat / 16) ::
      letter (b.toNat % 16 * 4 + c.toNat / 64) :: letter (c.toNat % 64) :: encode rest

def decode : List Char → Option Bytes
  | [] => some []
  | c₀ :: c₁ :: c₂ :: c₃ :: rest =>
    match value? c₀, value? c₁, value? c₂, value? c₃ with
    | some x, some y, some z, some w =>
      (decode rest).map fun bs => UInt8.ofNat (x * 4 + y / 16) ::
        UInt8.ofNat (y % 16 * 16 + z / 4) :: UInt8.ofNat (z % 4 * 64 + w) :: bs
    | some x, some y, some z, none =>
      if c₃ = pad ∧ z % 4 = 0 ∧ rest = [] then
        some [UInt8.ofNat (x * 4 + y / 16), UInt8.ofNat (y % 16 * 16 + z / 4)]
      else none
    | some x, some y, none, none =>
      if c₂ = pad ∧ c₃ = pad ∧ y % 16 = 0 ∧ rest = [] then some [UInt8.ofNat (x * 4 + y / 16)]
      else none
    | _, _, _, _ => none
  | _ => none

example : decode "TWFuTWE=".toList = some [77, 97, 110, 77, 97] := by decide

theorem value?_letter {n : ℕ} (h : n < 64) : value? (letter n) = some n := by
  have hall : ∀ i : Fin 64, value? (letter i) = some i.val := by decide +kernel
  exact hall ⟨n, h⟩

theorem value?_pad : value? pad = none := by decide

theorem letter_ne_pad {n : ℕ} (h : n < 64) : letter n ≠ pad := by
  intro heq
  have hvalue := value?_letter h
  rw [heq, value?_pad] at hvalue
  cases hvalue

theorem ofNat_eq {b : UInt8} {n : ℕ} (h : n = b.toNat) : UInt8.ofNat n = b := by
  rw [h]
  exact UInt8.ofNat_toNat

theorem decode_encode (bytes : Bytes) : decode (encode bytes) = some bytes := by
  induction bytes using encode.induct with
  | case1 => rfl
  | case2 a =>
    have ha := a.toNat_lt
    rw [encode, decode, value?_letter (by omega), value?_letter (by omega), value?_pad]
    dsimp only
    rw [if_pos ⟨rfl, rfl, by omega, rfl⟩, ofNat_eq (b := a) (by omega)]
  | case3 a b =>
    have ha := a.toNat_lt
    have hb := b.toNat_lt
    rw [encode, decode, value?_letter (by omega), value?_letter (by omega), value?_letter (by omega),
      value?_pad]
    dsimp only
    rw [if_pos ⟨rfl, by omega, rfl⟩, ofNat_eq (b := a) (by omega), ofNat_eq (b := b) (by omega)]
  | case4 a b c rest ih =>
    have ha := a.toNat_lt
    have hb := b.toNat_lt
    have hc := c.toNat_lt
    rw [encode, decode, value?_letter (by omega), value?_letter (by omega), value?_letter (by omega),
      value?_letter (by omega)]
    dsimp only
    rw [ih, Option.map_some, ofNat_eq (b := a) (by omega), ofNat_eq (b := b) (by omega),
      ofNat_eq (b := c) (by omega)]

/-- Four letters for every three bytes, begun ones included. -/
theorem length_encode (bytes : Bytes) : (encode bytes).length = 4 * ((bytes.length + 2) / 3) := by
  induction bytes using encode.induct with
  | case1 => rfl
  | case2 a => simp [encode]
  | case3 a b => simp [encode]
  | case4 a b c rest ih =>
    simp only [encode, List.length_cons, ih]
    omega

/-- Padding stands at the end only, two signs at most. -/
theorem encode_padded (bytes : Bytes) : ∃ body n, encode bytes = body ++ List.replicate n pad ∧
    pad ∉ body ∧ n ≤ 2 := by
  have hne : ∀ {n}, n < 64 → pad ≠ letter n := fun hn => (letter_ne_pad hn).symm
  induction bytes using encode.induct with
  | case1 => exact ⟨[], 0, rfl, List.not_mem_nil, by omega⟩
  | case2 a =>
    have ha := a.toNat_lt
    rw [encode]
    refine ⟨[_, _], 2, rfl, ?_, Nat.le_refl 2⟩
    simp only [List.mem_cons, List.not_mem_nil, or_false, not_or]
    exact ⟨hne (by omega), hne (by omega)⟩
  | case3 a b =>
    have ha := a.toNat_lt
    have hb := b.toNat_lt
    rw [encode]
    refine ⟨[_, _, _], 1, rfl, ?_, by omega⟩
    simp only [List.mem_cons, List.not_mem_nil, or_false, not_or]
    exact ⟨hne (by omega), hne (by omega), hne (by omega)⟩
  | case4 a b c rest ih =>
    have ha := a.toNat_lt
    have hb := b.toNat_lt
    have hc := c.toNat_lt
    obtain ⟨body, n, hrest, hbody, hn⟩ := ih
    rw [encode, hrest]
    refine ⟨_ :: _ :: _ :: _ :: body, n, rfl, ?_, hn⟩
    simp only [List.mem_cons, not_or]
    exact ⟨hne (by omega), hne (by omega), hne (by omega), hne (by omega), hbody⟩

end Jaiba.Lib.Base64
