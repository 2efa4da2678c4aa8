import Jaiba.Lib.Bytes

/-!
# Percent-encoding

An encoder that escapes the bytes of a set, and a decoder that reads an escape
wherever two bytes behind a `%` are a pair for it and leaves every other `%` as
it is. What the encoder leaves alone may be read as an escape: the decoder gives
the text back exactly where it holds none.
-/

namespace Jaiba.Lib.Percent

/-- `%`. -/
def percent : UInt8 := 37

/-- The upper-case digits. -/
def hexDigit (n : ℕ) : UInt8 := if n < 10 then UInt8.ofNat (48 + n) else UInt8.ofNat (55 + n)

def escape (b : UInt8) : Bytes := [percent, hexDigit (b.toNat / 16), hexDigit (b.toNat % 16)]

def encode (set : UInt8 → Bool) (bs : Bytes) : Bytes := bs.flatMap fun b => if set b then escape b else [b]

/-- The byte that two digits stand for, and what follows them. -/
def takePair (pair : UInt8 → UInt8 → Option UInt8) : Bytes → Option (UInt8 × Bytes)
  | a :: b :: rest => (pair a b).map fun byte => (byte, rest)
  | _ => none

def decode (pair : UInt8 → UInt8 → Option UInt8) : Bytes → Bytes
  | c :: a :: b :: rest =>
    if c = percent then
      match pair a b with
      | some byte => byte :: decode pair rest
      | none => c :: decode pair (a :: b :: rest)
    else c :: decode pair (a :: b :: rest)
  | bs => bs

/-- No `%` begins an escape. -/
def EscapeFree (pair : UInt8 → UInt8 → Option UInt8) (bs : Bytes) : Prop :=
  ∀ u v, bs = u ++ percent :: v → takePair pair v = none

/-- A set and pairs that know each other: the pairs read what the encoder writes, and their digits are not escaped. -/
structure Fits (set : UInt8 → Bool) (pair : UInt8 → UInt8 → Option UInt8) : Prop where
  percent : set percent = false
  digits : ∀ a b, (pair a b).isSome → (set a = false ∧ a ≠ 37) ∧ set b = false ∧ b ≠ 37
  reads : ∀ b : UInt8, pair (hexDigit (b.toNat / 16)) (hexDigit (b.toNat % 16)) = some b

section Encode

variable {set : UInt8 → Bool}

theorem encode_cons (b : UInt8) (bs : Bytes) :
    encode set (b :: bs) = (if set b then escape b else [b]) ++ encode set bs := rfl

theorem encode_cons_of_mem {b : UInt8} (h : set b = true) (bs : Bytes) :
    encode set (b :: bs) = percent :: hexDigit (b.toNat / 16) :: hexDigit (b.toNat % 16) :: encode set bs := by
  rw [encode_cons, if_pos h]
  rfl

theorem encode_cons_of_not_mem {b : UInt8} (h : set b = false) (bs : Bytes) :
    encode set (b :: bs) = b :: encode set bs := by
  rw [encode_cons, h]
  rfl

theorem encode_eq_self {bs : Bytes} (h : ∀ b ∈ bs, set b = false) : encode set bs = bs := by
  induction bs with
  | nil => rfl
  | cons b bs ih =>
    rw [encode_cons_of_not_mem (h b List.mem_cons_self), ih fun c hc => h c (List.mem_cons_of_mem b hc)]

/-- No byte of the set stands in an encoded text. -/
theorem not_set_of_mem_encode (hpercent : set percent = false) (hdigit : ∀ n, n < 16 → set (hexDigit n) = false)
    {bs : Bytes} {c : UInt8} (h : c ∈ encode set bs) : set c = false := by
  obtain ⟨b, -, hb⟩ := List.mem_flatMap.mp h
  have hlt : b.toNat < 256 := b.toNat_lt
  split at hb
  · simp only [escape, List.mem_cons, List.not_mem_nil, or_false] at hb
    rcases hb with rfl | rfl | rfl
    · exact hpercent
    · exact hdigit _ (by omega)
    · exact hdigit _ (by omega)
  · rename_i hset
    rw [List.mem_singleton.mp hb]
    exact Bool.eq_false_of_not_eq_true hset

/-- A text that is encoded as itself has no byte of the set. -/
theorem encode_eq_self_iff (hpercent : set percent = false) (hdigit : ∀ n, n < 16 → set (hexDigit n) = false)
    {bs : Bytes} : encode set bs = bs ↔ ∀ b ∈ bs, set b = false := by
  constructor
  · intro h b hb
    rw [← h] at hb
    exact not_set_of_mem_encode hpercent hdigit hb
  · exact encode_eq_self

theorem length_le_encode (bs : Bytes) : bs.length ≤ (encode set bs).length := by
  induction bs with
  | nil => exact Nat.le_refl _
  | cons b bs ih =>
    rw [encode_cons, List.length_append, List.length_cons]
    split
    · simp only [escape, List.length_cons, List.length_nil]
      omega
    · simp only [List.length_cons, List.length_nil]
      omega

end Encode

section Decode

variable {pair : UInt8 → UInt8 → Option UInt8}

theorem decode_cons_ne {c : UInt8} (h : c ≠ percent) (bs : Bytes) : decode pair (c :: bs) = c :: decode pair bs := by
  match bs with
  | [] => rfl
  | [a] => rfl
  | a :: b :: rest => rw [decode, if_neg h]

theorem decode_percent (bs : Bytes) : decode pair (percent :: bs) =
    ((takePair pair bs).map fun p => p.1 :: decode pair p.2).getD (percent :: decode pair bs) := by
  match bs with
  | [] => rfl
  | [a] => rfl
  | a :: b :: rest =>
    rw [decode, if_pos rfl, takePair]
    cases pair a b <;> rfl

theorem takePair_length {bs rest : Bytes} {byte : UInt8} (h : takePair pair bs = some (byte, rest)) :
    bs.length = rest.length + 2 := by
  match bs with
  | [] => cases h
  | [a] => cases h
  | a :: b :: tail =>
    obtain ⟨value, -, heq⟩ := Option.map_eq_some_iff.mp h
    cases heq
    rfl

theorem length_decode_le (bs : Bytes) : (decode pair bs).length ≤ bs.length := by
  induction hn : bs.length using Nat.strong_induction_on generalizing bs with
  | _ n ih =>
    cases bs with
    | nil => exact Nat.zero_le _
    | cons c bs =>
      rw [List.length_cons] at hn
      have htail := ih bs.length (by omega) bs rfl
      by_cases hc : c = percent
      · subst hc
        rw [decode_percent]
        cases hpair : takePair pair bs with
        | none =>
          simp only [Option.map_none, Option.getD_none, List.length_cons]
          omega
        | some p =>
          have hlength := takePair_length hpair
          have hrest := ih p.2.length (by omega) p.2 rfl
          simp only [Option.map_some, Option.getD_some, List.length_cons]
          omega
      · rw [decode_cons_ne hc, List.length_cons]
        omega

theorem EscapeFree.tail {c : UInt8} {bs : Bytes} (h : EscapeFree pair (c :: bs)) : EscapeFree pair bs := by
  rintro u v rfl
  exact h (c :: u) v rfl

/-- The decoder gives a text back if and only if no escape stands in it. -/
theorem decode_eq_self_iff {bs : Bytes} : decode pair bs = bs ↔ EscapeFree pair bs := by
  induction bs with
  | nil =>
    refine iff_of_true rfl fun u v h => ?_
    cases u <;> cases h
  | cons c bs ih =>
    by_cases hc : c = percent
    · subst hc
      rw [decode_percent]
      cases hpair : takePair pair bs with
      | none =>
        simp only [Option.map_none, Option.getD_none, List.cons.injEq, true_and]
        rw [ih]
        constructor
        · intro h u v huv
          cases u with
          | nil =>
            obtain ⟨-, rfl⟩ := List.cons.inj huv
            exact hpair
          | cons d u =>
            obtain ⟨-, hbs⟩ := List.cons.inj huv
            exact h u v hbs
        · exact EscapeFree.tail
      | some p =>
        refine iff_of_false (fun heq => ?_) fun h => ?_
        · have hlength := congrArg List.length heq
          have hle : (decode pair p.2).length ≤ p.2.length := length_decode_le p.2
          have htaken := takePair_length hpair
          simp only [Option.map_some, Option.getD_some, List.length_cons] at hlength
          omega
        · have hnone := h [] bs rfl
          rw [hpair] at hnone
          cases hnone
    · rw [decode_cons_ne hc, List.cons.injEq, and_iff_right rfl, ih]
      constructor
      · intro h u v huv
        cases u with
        | nil => exact absurd (List.cons.inj huv).1 hc
        | cons d u =>
          obtain ⟨-, hbs⟩ := List.cons.inj huv
          exact h u v hbs
      · exact EscapeFree.tail

variable {set : UInt8 → Bool} (hfits : Fits set pair)
include hfits

theorem takePair_encode (bs : Bytes) : takePair pair (encode set bs) =
    (takePair pair bs).map fun p => (p.1, encode set p.2) := by
  have hnone : ∀ {a : UInt8} {rest : Bytes}, (∀ b, pair a b = none) → takePair pair (a :: rest) = none := by
    intro a rest h
    match rest with
    | [] => rfl
    | b :: rest => rw [takePair, h b]; rfl
  have hescaped : ∀ {a : UInt8}, set a = true → ∀ b, pair a b = none := by
    intro a ha b
    by_contra hsome
    rw [((hfits.digits a b (Option.isSome_iff_ne_none.mpr hsome)).1).1] at ha
    cases ha
  have hpercent : ∀ b, pair percent b = none := by
    intro b
    by_contra hsome
    exact ((hfits.digits percent b (Option.isSome_iff_ne_none.mpr hsome)).1).2 rfl
  match bs with
  | [] => rfl
  | [a] =>
    cases ha : set a with
    | true =>
      rw [encode_cons_of_mem ha, hnone hpercent]
      rfl
    | false =>
      rw [encode_cons_of_not_mem ha]
      rfl
  | a :: b :: rest =>
    cases ha : set a with
    | true =>
      rw [encode_cons_of_mem ha, hnone hpercent, hnone (hescaped ha)]
      rfl
    | false =>
      rw [encode_cons_of_not_mem ha]
      cases hb : set b with
      | true =>
        have hpair : pair a b = none := by
          by_contra hsome
          rw [((hfits.digits a b (Option.isSome_iff_ne_none.mpr hsome)).2).1] at hb
          cases hb
        have hpair' : pair a percent = none := by
          by_contra hsome
          exact ((hfits.digits a percent (Option.isSome_iff_ne_none.mpr hsome)).2).2 rfl
        rw [encode_cons_of_mem hb, takePair, takePair, hpair, hpair']
        rfl
      | false =>
        rw [encode_cons_of_not_mem hb, takePair, takePair, Option.map_map]
        rfl

/-- The decoder does not see what the encoder did. -/
theorem decode_encode (bs : Bytes) : decode pair (encode set bs) = decode pair bs := by
  induction hn : bs.length using Nat.strong_induction_on generalizing bs with
  | _ n ih =>
    cases bs with
    | nil => rfl
    | cons c bs =>
      rw [List.length_cons] at hn
      have htail := ih bs.length (by omega) bs rfl
      cases hc : set c with
      | true =>
        have hne : c ≠ percent := by
          rintro rfl
          rw [hfits.percent] at hc
          cases hc
        rw [encode_cons_of_mem hc, decode_percent, takePair, hfits.reads, decode_cons_ne hne, ← htail]
        rfl
      | false =>
        rw [encode_cons_of_not_mem hc]
        by_cases heq : c = percent
        · subst heq
          rw [decode_percent, decode_percent, takePair_encode hfits, Option.map_map, htail]
          cases hpair : takePair pair bs with
          | none => rfl
          | some p =>
            have hlength := takePair_length hpair
            exact congrArg (p.1 :: ·) (ih p.2.length (by omega) p.2 rfl)
        · rw [decode_cons_ne heq, decode_cons_ne heq, htail]

end Decode

/-! ### Hexadecimal pairs -/

def hexValue (b : UInt8) : Option ℕ :=
  if 48 ≤ b.toNat ∧ b.toNat ≤ 57 then some (b.toNat - 48)
  else if 65 ≤ b.toNat ∧ b.toNat ≤ 70 then some (b.toNat - 55)
  else if 97 ≤ b.toNat ∧ b.toNat ≤ 102 then some (b.toNat - 87)
  else none

def hexPair (a b : UInt8) : Option UInt8 :=
  match hexValue a, hexValue b with
  | some high, some low => some (UInt8.ofNat (high * 16 + low))
  | _, _ => none

theorem hexValue_hexDigit : ∀ n, n < 16 → hexValue (hexDigit n) = some n := by decide

theorem hexPair_escape (b : UInt8) : hexPair (hexDigit (b.toNat / 16)) (hexDigit (b.toNat % 16)) = some b := by
  have hlt : b.toNat < 256 := b.toNat_lt
  have hsum : b.toNat / 16 * 16 + b.toNat % 16 = b.toNat := by omega
  rw [hexPair, hexValue_hexDigit _ (by omega), hexValue_hexDigit _ (by omega)]
  dsimp only
  rw [hsum, UInt8.ofNat_toNat]

theorem hexPair_isSome {a b : UInt8} (h : (hexPair a b).isSome) : (hexValue a).isSome ∧ (hexValue b).isSome := by
  unfold hexPair at h
  cases ha : hexValue a with
  | none =>
    rw [ha] at h
    cases h
  | some high =>
    cases hb : hexValue b with
    | none =>
      rw [ha, hb] at h
      cases h
    | some low => exact ⟨rfl, rfl⟩

end Jaiba.Lib.Percent
