import Jaiba.Lib.Base64
import Jaiba.Lib.Chunks

/-!
# Base64 of binary columns (`connectors/values.rs`, `connectors/sqlserver.rs`)

Two encoders over chunks of three bytes, each packing its chunk into a `u32`.
Both are the encoding of RFC 4648.
-/

namespace Jaiba.Connectors
open Jaiba.Lib

/-- The letter of a table with 64 entries; the index is masked by `0x3f`. -/
def tableLetter (table : List Char) (index : UInt32) : Char := table.getD index.toNat Base64.pad

namespace Values

/-- `ALPHABET`. -/
def alphabet : List Char :=
  ['A', 'B', 'C', 'D', 'E', 'F', 'G', 'H', 'I', 'J', 'K', 'L', 'M', 'N', 'O', 'P',
   'Q', 'R', 'S', 'T', 'U', 'V', 'W', 'X', 'Y', 'Z', 'a', 'b', 'c', 'd', 'e', 'f',
   'g', 'h', 'i', 'j', 'k', 'l', 'm', 'n', 'o', 'p', 'q', 'r', 's', 't', 'u', 'v',
   'w', 'x', 'y', 'z', '0', '1', '2', '3', '4', '5', '6', '7', '8', '9', '+', '/']

def triple (chunk : Bytes) : UInt32 :=
  ((chunk.getD 0 0).toUInt32 <<< 16) ||| ((chunk.getD 1 0).toUInt32 <<< 8) ||| (chunk.getD 2 0).toUInt32

/-- The loop over the four positions. -/
def encodeChunk (chunk : Bytes) : List Char :=
  (List.range 4).map fun position =>
    if position ≤ chunk.length then
      tableLetter alphabet ((triple chunk >>> (18 - UInt32.ofNat position * 6)) &&& 0x3f)
    else '='

def base64Encode (bytes : Bytes) : String := String.ofList ((chunks 3 bytes).flatMap encodeChunk)

end Values

namespace SqlServer

/-- `TABLE`. -/
def table : List Char :=
  ['A', 'B', 'C', 'D', 'E', 'F', 'G', 'H', 'I', 'J', 'K', 'L', 'M', 'N', 'O', 'P',
   'Q', 'R', 'S', 'T', 'U', 'V', 'W', 'X', 'Y', 'Z', 'a', 'b', 'c', 'd', 'e', 'f',
   'g', 'h', 'i', 'j', 'k', 'l', 'm', 'n', 'o', 'p', 'q', 'r', 's', 't', 'u', 'v',
   'w', 'x', 'y', 'z', '0', '1', '2', '3', '4', '5', '6', '7', '8', '9', '+', '/']

def encodeChunk (chunk : Bytes) : List Char :=
  let b0 := (chunk.getD 0 0).toUInt32
  let b1 := (chunk.getD 1 0).toUInt32
  let b2 := (chunk.getD 2 0).toUInt32
  let triple := (b0 <<< 16) ||| (b1 <<< 8) ||| b2
  [tableLetter table ((triple >>> 18) &&& 0x3f), tableLetter table ((triple >>> 12) &&& 0x3f),
    if 1 < chunk.length then tableLetter table ((triple >>> 6) &&& 0x3f) else '=',
    if 2 < chunk.length then tableLetter table (triple &&& 0x3f) else '=']

def base64Encode (bytes : Bytes) : String := String.ofList ((chunks 3 bytes).flatMap encodeChunk)

end SqlServer

/-! ### Six bits -/

/-- Three bytes packed into a word, the first one in front. -/
theorem packed_toNat (a b c : UInt8) :
    ((a.toUInt32 <<< 16) ||| (b.toUInt32 <<< 8) ||| c.toUInt32).toNat =
      a.toNat * 65536 + b.toNat * 256 + c.toNat := by
  have ha := a.toNat_lt
  have hb := b.toNat_lt
  have hc := c.toNat_lt
  have h16 : (16 : UInt32).toNat % 32 = 16 := by decide
  have h8 : (8 : UInt32).toNat % 32 = 8 := by decide
  have hlow : b.toNat <<< 8 + c.toNat < 2 ^ 16 := by
    rw [Nat.shiftLeft_eq]
    omega
  simp only [UInt32.toNat_or, UInt32.toNat_shiftLeft, UInt8.toNat_toUInt32]
  rw [h16, h8, Nat.mod_eq_of_lt (by rw [Nat.shiftLeft_eq]; omega),
    Nat.mod_eq_of_lt (by rw [Nat.shiftLeft_eq]; omega), Nat.or_assoc,
    ← Nat.shiftLeft_add_eq_or_of_lt (b := c.toNat) (i := 8) (by omega),
    ← Nat.shiftLeft_add_eq_or_of_lt hlow, Nat.shiftLeft_eq, Nat.shiftLeft_eq]
  omega

/-- Six bits of a word, `shift` bits from its end. -/
theorem masked_toNat (word : UInt32) {shift : UInt32} {n : ℕ} (hshift : shift.toNat = n) (hn : n < 32) :
    ((word >>> shift) &&& 0x3f).toNat = word.toNat / 2 ^ n % 64 := by
  have hmask : (0x3f : UInt32).toNat = 2 ^ 6 - 1 := by decide
  rw [UInt32.toNat_and, UInt32.toNat_shiftRight, hmask, Nat.and_two_pow_sub_one_eq_mod, hshift,
    Nat.shiftRight_eq_div_pow, Nat.mod_eq_of_lt hn]

theorem low_toNat (word : UInt32) : (word &&& 0x3f).toNat = word.toNat / 2 ^ 0 % 64 := by
  have hmask : (0x3f : UInt32).toNat = 2 ^ 6 - 1 := by decide
  rw [UInt32.toNat_and, hmask, Nat.and_two_pow_sub_one_eq_mod, pow_zero, Nat.div_one]

/-- Six bits of a chunk of three bytes at most, the missing ones zero. -/
def sextet (chunk : Bytes) (shift : ℕ) : Char :=
  Base64.letter (((chunk.getD 0 0).toNat * 65536 + (chunk.getD 1 0).toNat * 256 +
    (chunk.getD 2 0).toNat) / 2 ^ shift % 64)

/-- The group of the standard. -/
def group (chunk : Bytes) : List Char :=
  [sextet chunk 18, sextet chunk 12, if 1 < chunk.length then sextet chunk 6 else Base64.pad,
    if 2 < chunk.length then sextet chunk 0 else Base64.pad]

theorem SqlServer.encodeChunk_eq (chunk : Bytes) : SqlServer.encodeChunk chunk = group chunk := by
  have htable : SqlServer.table = Base64.alphabet := rfl
  rw [SqlServer.encodeChunk, group]
  simp only [tableLetter, htable, low_toNat, packed_toNat,
    masked_toNat _ (show (18 : UInt32).toNat = 18 from rfl) (by omega),
    masked_toNat _ (show (12 : UInt32).toNat = 12 from rfl) (by omega),
    masked_toNat _ (show (6 : UInt32).toNat = 6 from rfl) (by omega)]
  rfl

theorem Values.encodeChunk_eq {chunk : Bytes} (h : chunk ≠ []) : Values.encodeChunk chunk = group chunk := by
  have halphabet : Values.alphabet = Base64.alphabet := rfl
  have hpos : 1 ≤ chunk.length := List.length_pos_iff.mpr h
  have hshift : ∀ position, position < 4 →
      (18 - UInt32.ofNat position * 6).toNat = 18 - position * 6 := by decide
  have hletter : ∀ position shift, position < 4 → 18 - position * 6 = shift →
      tableLetter Values.alphabet ((Values.triple chunk >>> (18 - UInt32.ofNat position * 6)) &&& 0x3f) =
        sextet chunk shift := by
    rintro position shift hposition rfl
    rw [tableLetter, masked_toNat _ (hshift position hposition) (by omega), Values.triple, packed_toNat,
      halphabet]
    rfl
  have hrange : List.range 4 = [0, 1, 2, 3] := rfl
  rw [Values.encodeChunk, hrange, List.map_cons, List.map_cons, List.map_cons, List.map_cons, List.map_nil,
    hletter 0 18 (by omega) rfl, hletter 1 12 (by omega) rfl, hletter 2 6 (by omega) rfl,
    hletter 3 0 (by omega) rfl, if_pos (Nat.zero_le _), if_pos hpos]
  rfl

/-! ### The standard -/

theorem sextet_eq {chunk : Bytes} {a b c : UInt8} (ha : chunk.getD 0 0 = a) (hb : chunk.getD 1 0 = b)
    (hc : chunk.getD 2 0 = c) {shift n : ℕ}
    (h : (a.toNat * 65536 + b.toNat * 256 + c.toNat) / 2 ^ shift % 64 = n) :
    sextet chunk shift = Base64.letter n := by
  rw [sextet, ha, hb, hc, h]

theorem group_encode (bytes : Bytes) : (chunks 3 bytes).flatMap group = Base64.encode bytes := by
  have hzero : (0 : UInt8).toNat = 0 := rfl
  induction bytes using Base64.encode.induct with
  | case1 => rfl
  | case2 a =>
    have ha := a.toNat_lt
    have hletter := fun shift n => @sextet_eq [a] a 0 0 rfl rfl rfl shift n
    have hchunks : chunks 3 [a] = [[a]] := rfl
    rw [hchunks, List.flatMap_singleton, Base64.encode, group, hletter 18 (a.toNat / 4) (by omega),
      hletter 12 (a.toNat % 4 * 16) (by omega), if_neg (by simp), if_neg (by simp)]
  | case3 a b =>
    have ha := a.toNat_lt
    have hb := b.toNat_lt
    have hletter := fun shift n => @sextet_eq [a, b] a b 0 rfl rfl rfl shift n
    have hchunks : chunks 3 [a, b] = [[a, b]] := rfl
    rw [hchunks, List.flatMap_singleton, Base64.encode, group, hletter 18 (a.toNat / 4) (by omega),
      hletter 12 (a.toNat % 4 * 16 + b.toNat / 16) (by omega), if_pos (by simp),
      hletter 6 (b.toNat % 16 * 4) (by omega), if_neg (by simp)]
  | case4 a b c rest ih =>
    have ha := a.toNat_lt
    have hb := b.toNat_lt
    have hc := c.toNat_lt
    have hletter := fun shift n => @sextet_eq [a, b, c] a b c rfl rfl rfl shift n
    have hchunks : chunks 3 (a :: b :: c :: rest) = [a, b, c] :: chunks 3 rest :=
      chunks_of_ne_nil (by omega) (List.cons_ne_nil _ _)
    rw [hchunks, List.flatMap_cons, ih, Base64.encode, group, hletter 18 (a.toNat / 4) (by omega),
      hletter 12 (a.toNat % 4 * 16 + b.toNat / 16) (by omega), if_pos (by simp),
      hletter 6 (b.toNat % 16 * 4 + c.toNat / 64) (by omega), if_pos (by simp),
      hletter 0 (c.toNat % 64) (by omega)]
    rfl

theorem SqlServer.base64Encode_eq (bytes : Bytes) :
    SqlServer.base64Encode bytes = String.ofList (Base64.encode bytes) := by
  have hchunk : SqlServer.encodeChunk = group := funext SqlServer.encodeChunk_eq
  rw [SqlServer.base64Encode, hchunk, group_encode]

theorem Values.base64Encode_eq (bytes : Bytes) :
    Values.base64Encode bytes = String.ofList (Base64.encode bytes) := by
  have hchunks : (chunks 3 bytes).flatMap Values.encodeChunk = (chunks 3 bytes).flatMap group :=
    List.flatMap_congr fun _ h => Values.encodeChunk_eq (ne_nil_of_mem_chunks (by omega) h)
  rw [Values.base64Encode, hchunks, group_encode]

/-- Both encoders give the text of RFC 4648: it decodes to the bytes, has four
letters for every three bytes and is padded at its end only. -/
theorem base64_encoders_agree (bytes : Bytes) :
    Values.base64Encode bytes = SqlServer.base64Encode bytes ∧
      Base64.decode (Values.base64Encode bytes).toList = some bytes ∧
      (Values.base64Encode bytes).toList.length = 4 * ((bytes.length + 2) / 3) ∧
      ∃ body n, (Values.base64Encode bytes).toList = body ++ List.replicate n '=' ∧ '=' ∉ body ∧ n ≤ 2 := by
  rw [Values.base64Encode_eq, SqlServer.base64Encode_eq, String.toList_ofList]
  exact ⟨rfl, Base64.decode_encode bytes, Base64.length_encode bytes, Base64.encode_padded bytes⟩

end Jaiba.Connectors
