import Mathlib.Data.List.Basic
import Mathlib.Tactic.NormNum

/-!
# Byte strings

Little-endian words, UTF-8 fields and slices of byte strings, with the round
trips that a reader of records rests on.
-/

namespace Jaiba.Lib

abbrev Bytes := List UInt8

/-- A format of values of `T` as byte strings (`to_vec` and `from_slice` of a
serialisation library), with the texts of its errors. -/
structure Serde (T : Type) where
  toVec : T → Except String Bytes
  fromSlice : Bytes → Except String T

/-! ### Little-endian words -/

/-- `n` in `width` bytes, low byte first; what does not fit is cut off. -/
def toLeBytes : ℕ → ℕ → Bytes
  | 0, _ => []
  | width + 1, n => UInt8.ofNat (n % 256) :: toLeBytes width (n / 256)

def ofLeBytes : Bytes → ℕ
  | [] => 0
  | b :: bs => b.toNat + 256 * ofLeBytes bs

@[simp] theorem length_toLeBytes (width n : ℕ) : (toLeBytes width n).length = width := by
  induction width generalizing n with
  | zero => rfl
  | succ width ih => rw [toLeBytes, List.length_cons, ih]

theorem ofLeBytes_toLeBytes {width n : ℕ} (h : n < 256 ^ width) :
    ofLeBytes (toLeBytes width n) = n := by
  induction width generalizing n with
  | zero =>
    rw [pow_zero] at h
    rw [toLeBytes, ofLeBytes]
    omega
  | succ width ih =>
    have hdiv : n / 256 < 256 ^ width := by
      rw [pow_succ] at h
      exact Nat.div_lt_of_lt_mul (by omega)
    have hlow : (UInt8.ofNat (n % 256)).toNat = n % 256 := by
      rw [UInt8.toNat_ofNat']
      omega
    rw [toLeBytes, ofLeBytes, ih hdiv, hlow]
    omega

/-! ### UTF-8 fields -/

def utf8 (s : String) : Bytes := s.toUTF8.data.toList

def ofUtf8? (bs : Bytes) : Option String := String.fromUTF8? ⟨bs.toArray⟩

@[simp] theorem ofUtf8?_utf8 (s : String) : ofUtf8? (utf8 s) = some s := by
  have hbytes : (⟨(utf8 s).toArray⟩ : ByteArray) = s.toByteArray := by
    rw [utf8, Array.toArray_toList, String.toUTF8_eq_toByteArray]
  rw [ofUtf8?, hbytes, String.fromUTF8?, dif_pos s.isValidUTF8]
  rfl

theorem utf8_injective {s t : String} (h : utf8 s = utf8 t) : s = t := by
  have hs := ofUtf8?_utf8 s
  rw [h, ofUtf8?_utf8] at hs
  exact (Option.some.inj hs).symm

/-! ### Slices -/

/-- `bytes[start..start + len]`; shorter where the bytes end before. -/
def slice (bs : Bytes) (start len : ℕ) : Bytes := (bs.drop start).take len

theorem slice_eq_mid {bs : Bytes} (pre mid post : Bytes) {start len : ℕ}
    (h : bs = pre ++ mid ++ post) (hs : pre.length = start) (hl : mid.length = len) : slice bs start len = mid := by
  subst h hs hl
  rw [slice, List.append_assoc, List.drop_left, List.take_left]

theorem slice_append_right (pre bs : Bytes) (start len : ℕ) :
    slice (pre ++ bs) (pre.length + start) len = slice bs start len := by
  rw [slice, slice, List.drop_append, Nat.add_sub_cancel_left, List.drop_eq_nil_of_le (by omega),
    List.nil_append]

/-- A slice is not changed by what is appended after it. -/
theorem slice_append {bs : Bytes} {start len : ℕ} (h : start + len ≤ bs.length) (more : Bytes) :
    slice (bs ++ more) start len = slice bs start len := by
  rw [slice, slice, List.drop_append_of_le_length (by omega), List.take_append_of_le_length]
  rw [List.length_drop]
  omega

/-- Nor by cutting the bytes behind its end. -/
theorem slice_take {bs : Bytes} {start len n : ℕ} (h : start + len ≤ n) :
    slice (bs.take n) start len = slice bs start len := by
  rw [slice, slice, List.drop_take, List.take_take]
  congr 1
  omega

theorem length_slice {bs : Bytes} {start len : ℕ} (h : start + len ≤ bs.length) :
    (slice bs start len).length = len := by
  rw [slice, List.length_take, List.length_drop]
  omega

end Jaiba.Lib
