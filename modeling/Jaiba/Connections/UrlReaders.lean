import Jaiba.Connections.WriterUrls

/-!
# Texts that a reader of URLs gives back

For each way to read user information and path, the texts that come back from
what the setters of the `url` crate make of them.
-/

namespace Jaiba.Connections
open Jaiba.Lib Percent UrlPath

/-! ### The sets and the pairs -/

theorem userinfoSet_percent : userinfoSet percent = false := by decide

theorem isSome_hexValue_lt {b : UInt8} (h : (hexValue b).isSome) :
    (48 ≤ b.toNat ∧ b.toNat ≤ 57) ∨ (65 ≤ b.toNat ∧ b.toNat ≤ 70) ∨ 97 ≤ b.toNat ∧ b.toNat ≤ 102 := by
  unfold hexValue at h
  split at h
  next hdigit => exact .inl hdigit
  · split at h
    next hupper => exact .inr (.inl hupper)
    · split at h
      next hlower => exact .inr (.inr hlower)
      · cases h

theorem userinfoSet_hexValue : ∀ b : UInt8, (hexValue b).isSome → userinfoSet b = false := by
  intro b h
  have hrange := isSome_hexValue_lt h
  unfold userinfoSet
  simp only [List.mem_cons, List.not_mem_nil, or_false, Bool.or_eq_false_iff, decide_eq_false_iff_not, ← UInt8.toNat_inj,
    UInt8.reduceToNat]
  omega

theorem ne_percent_of_hexValue {b : UInt8} (h : (hexValue b).isSome) : b ≠ 37 := by
  rintro rfl
  exact absurd h (by decide)

theorem hexPair_fits {set : UInt8 → Bool} (hpercent : set percent = false)
    (hdigits : ∀ b, (hexValue b).isSome → set b = false) : Fits set hexPair where
  percent := hpercent
  digits a b h := by
    obtain ⟨ha, hb⟩ := hexPair_isSome h
    exact ⟨⟨hdigits a ha, ne_percent_of_hexValue ha⟩, hdigits b hb, ne_percent_of_hexValue hb⟩
  reads := hexPair_escape

theorem radixPair_escape (b : UInt8) : radixPair (hexDigit (b.toNat / 16)) (hexDigit (b.toNat % 16)) = some b := by
  have hplus : ∀ n, n < 16 → hexDigit n ≠ 43 := by decide
  have hlt : b.toNat < 256 := b.toNat_lt
  rw [radixPair, if_neg (hplus _ (by omega)), hexPair_escape]

theorem radixPair_fits : Fits userinfoSet radixPair where
  percent := userinfoSet_percent
  digits a b h := by
    unfold radixPair at h
    split at h
    next ha =>
      rw [Option.isSome_map] at h
      rw [ha]
      exact ⟨by decide, userinfoSet_hexValue b h, ne_percent_of_hexValue h⟩
    · obtain ⟨ha, hb⟩ := hexPair_isSome h
      exact ⟨⟨userinfoSet_hexValue a ha, ne_percent_of_hexValue ha⟩, userinfoSet_hexValue b hb,
        ne_percent_of_hexValue hb⟩
  reads := radixPair_escape

theorem hexDigit_isSome : ∀ n, n < 16 → (hexValue (hexDigit n)).isSome := by decide

theorem encode_userinfo_eq_self_iff {bs : Lib.Bytes} : encode userinfoSet bs = bs ↔ ∀ b ∈ bs, userinfoSet b = false :=
  encode_eq_self_iff userinfoSet_percent fun n hn => userinfoSet_hexValue _ (hexDigit_isSome n hn)

theorem encode_eq_nil {set : UInt8 → Bool} {bs : Lib.Bytes} : encode set bs = [] ↔ bs = [] := by
  cases bs with
  | nil => exact iff_of_true rfl rfl
  | cons b bs =>
    refine iff_of_false (fun h => ?_) (List.cons_ne_nil b bs)
    have hlength : (b :: bs).length ≤ (encode set (b :: bs)).length := length_le_encode (b :: bs)
    rw [h, List.length_cons, List.length_nil] at hlength
    omega

@[simp] theorem fromUtf8_utf8 (s : String) : fromUtf8 (utf8 s) = some (utf8 s) := by
  rw [fromUtf8, ofUtf8?_utf8]
  rfl

theorem fromUtf8_eq_some {bs bs' : Lib.Bytes} (h : fromUtf8 bs = some bs') : bs = bs' := by
  unfold fromUtf8 at h
  split at h
  · exact Option.some.inj h
  · cases h

/-- A text read from bytes is the text of a string if and only if the bytes are. -/
theorem fromUtf8_eq_utf8_iff {bs : Lib.Bytes} {s : String} : fromUtf8 bs = some (utf8 s) ↔ bs = utf8 s := by
  refine ⟨fromUtf8_eq_some, ?_⟩
  rintro rfl
  exact fromUtf8_utf8 s

theorem utf8_eq_nil {s : String} : utf8 s = [] ↔ s = "" := by
  constructor
  · intro h
    exact utf8_injective (h.trans (show [] = utf8 "" from rfl))
  · rintro rfl
    rfl

/-! ### User information -/

theorem decode_userinfo_iff {s : Lib.Bytes} : decode hexPair (encode userinfoSet s) = s ↔ EscapeFree hexPair s := by
  rw [decode_encode (hexPair_fits userinfoSet_percent userinfoSet_hexValue), decode_eq_self_iff]

theorem radix_userinfo_iff {s : Lib.Bytes} : decode radixPair (encode userinfoSet s) = s ↔ EscapeFree radixPair s := by
  rw [decode_encode radixPair_fits, decode_eq_self_iff]

/-- What `percent_encoding_decode` reads back: no `+`, and a `%` only among the last two bytes of the escaped text. -/
def ReadBack (s : Lib.Bytes) : Prop :=
  43 ∉ s ∧ ∀ u v, s = u ++ percent :: v → (encode userinfoSet v).length < 2

theorem unescape_cons_ne {c : UInt8} (h : c ≠ percent) (bs : Lib.Bytes) :
    unescape (c :: bs) = (unescape bs).map (plusToSpace c :: ·) := by
  match bs with
  | [] => rfl
  | [a] => rfl
  | a :: b :: rest => rw [unescape, if_neg h]

theorem unescape_percent_short {bs : Lib.Bytes} (h : bs.length < 2) :
    unescape (percent :: bs) = (unescape bs).map (percent :: ·) := by
  match bs with
  | [] => rfl
  | [a] => rfl
  | a :: b :: rest => exact absurd h (by simp only [List.length_cons]; omega)

theorem unescape_percent_long {bs : Lib.Bytes} (h : 2 ≤ bs.length) :
    unescape (percent :: bs) = (takePair radixPair bs).bind fun p => (unescape p.2).map (p.1 :: ·) := by
  match bs with
  | [] => exact absurd h (by decide)
  | [a] => exact absurd h (by simp)
  | a :: b :: rest =>
    rw [unescape, if_pos rfl, takePair]
    cases radixPair a b <;> rfl

theorem unescape_escape {c : UInt8} (h : userinfoSet c = true) (bs : Lib.Bytes) :
    unescape (encode userinfoSet (c :: bs)) = (unescape (encode userinfoSet bs)).map (c :: ·) := by
  rw [encode_cons_of_mem h, unescape_percent_long (by simp), takePair, radixPair_escape]
  rfl

theorem unescape_length {s out : Lib.Bytes} (h : unescape (encode userinfoSet s) = some out) : out.length ≤ s.length := by
  induction hn : s.length using Nat.strong_induction_on generalizing s out with
  | _ n ih =>
    cases s with
    | nil =>
      cases h
      exact Nat.zero_le _
    | cons c s =>
      rw [List.length_cons] at hn
      have htail : ∀ {f : Lib.Bytes → Lib.Bytes}, (∀ bs, (f bs).length = bs.length + 1) →
          (unescape (encode userinfoSet s)).map f = some out → out.length ≤ n := by
        intro f hf hmap
        obtain ⟨out', hout, rfl⟩ := Option.map_eq_some_iff.mp hmap
        have hle := ih s.length (by omega) hout rfl
        rw [hf]
        omega
      cases hc : userinfoSet c with
      | true =>
        rw [unescape_escape hc] at h
        exact htail (fun bs => List.length_cons) h
      | false =>
        rw [encode_cons_of_not_mem hc] at h
        by_cases heq : c = percent
        · subst heq
          by_cases hlong : 2 ≤ (encode userinfoSet s).length
          · rw [unescape_percent_long hlong, takePair_encode radixPair_fits] at h
            cases hpair : takePair radixPair s with
            | none =>
              rw [hpair] at h
              cases h
            | some p =>
              rw [hpair] at h
              obtain ⟨out', hout, rfl⟩ := Option.map_eq_some_iff.mp h
              have htaken := takePair_length hpair
              have hle := ih p.2.length (by omega) hout rfl
              rw [List.length_cons]
              omega
          · rw [unescape_percent_short (by omega)] at h
            exact htail (fun bs => List.length_cons) h
        · rw [unescape_cons_ne heq] at h
          exact htail (fun bs => List.length_cons) h

theorem readBack_cons {c : UInt8} {s : Lib.Bytes} : ReadBack (c :: s) ↔
    c ≠ 43 ∧ (c = percent → (encode userinfoSet s).length < 2) ∧ ReadBack s := by
  constructor
  · rintro ⟨hplus, hlast⟩
    refine ⟨fun hc => hplus (by rw [hc]; exact List.mem_cons_self), fun hc => hlast [] s (by rw [hc]; rfl),
      fun hmem => hplus (List.mem_cons_of_mem c hmem), fun u v hs => hlast (c :: u) v (by rw [hs]; rfl)⟩
  · rintro ⟨hc, hlast, hplus, hrest⟩
    refine ⟨fun hmem => ?_, fun u v hs => ?_⟩
    · rcases List.mem_cons.mp hmem with heq | hmem
      · exact hc heq.symm
      · exact hplus hmem
    · cases u with
      | nil =>
        obtain ⟨heq, rfl⟩ := List.cons.inj hs
        exact hlast heq
      | cons d u => exact hrest u v (List.cons.inj hs).2

theorem unescape_userinfo_iff {s : Lib.Bytes} : unescape (encode userinfoSet s) = some s ↔ ReadBack s := by
  induction s with
  | nil =>
    refine iff_of_true rfl ⟨List.not_mem_nil, fun u v h => ?_⟩
    cases u <;> cases h
  | cons c s ih =>
    have hmap : ∀ d : UInt8, (unescape (encode userinfoSet s)).map (d :: ·) = some (c :: s) ↔ d = c ∧ ReadBack s := by
      intro d
      rw [Option.map_eq_some_iff, ← ih]
      constructor
      · rintro ⟨out, hout, heq⟩
        obtain ⟨rfl, rfl⟩ := List.cons.inj heq
        exact ⟨rfl, hout⟩
      · rintro ⟨rfl, hout⟩
        exact ⟨s, hout, rfl⟩
    rw [readBack_cons]
    cases hc : userinfoSet c with
    | true =>
      have hne : c ≠ 43 ∧ c ≠ percent := by
        constructor
        · rintro rfl
          exact absurd hc (by decide)
        · rintro rfl
          exact absurd hc (by decide)
      rw [unescape_escape hc, hmap]
      exact ⟨fun h => ⟨hne.1, fun heq => absurd heq hne.2, h.2⟩, fun h => ⟨rfl, h.2.2⟩⟩
    | false =>
      rw [encode_cons_of_not_mem hc]
      by_cases heq : c = percent
      · subst heq
        by_cases hlong : 2 ≤ (encode userinfoSet s).length
        · refine iff_of_false (fun h => ?_) fun h => ?_
          · rw [unescape_percent_long hlong, takePair_encode radixPair_fits] at h
            cases hpair : takePair radixPair s with
            | none =>
              rw [hpair] at h
              cases h
            | some p =>
              rw [hpair] at h
              obtain ⟨out, hout, hcons⟩ := Option.map_eq_some_iff.mp h
              have hlength := unescape_length hout
              have htaken := takePair_length hpair
              rw [(List.cons.inj hcons).2] at hlength
              omega
          · have hshort := h.2.1 rfl
            omega
        · rw [unescape_percent_short (by omega), hmap]
          exact ⟨fun h => ⟨by decide, fun _ => by omega, h.2⟩, fun h => ⟨rfl, h.2.2⟩⟩
      · have hplus : plusToSpace c = c ↔ c ≠ 43 := by
          unfold plusToSpace
          split
          next hc43 =>
            rw [hc43]
            decide
          next hc43 => exact iff_of_true rfl hc43
        rw [unescape_cons_ne heq, hmap, hplus]
        exact ⟨fun h => ⟨h.1, fun hc' => absurd hc' heq, h.2⟩, fun h => ⟨h.1, h.2.2⟩⟩

theorem urlencoding_userinfo_iff {s : String} : urlencodingDecode (encode userinfoSet (utf8 s)) = utf8 s ↔
    ReadBack (utf8 s) ∨ (∀ b ∈ utf8 s, userinfoSet b = false) ∧ percentEncodingDecode (utf8 s) = none := by
  constructor
  · intro h
    cases hdecode : percentEncodingDecode (encode userinfoSet (utf8 s)) with
    | none =>
      rw [urlencodingDecode, hdecode, Option.getD_none] at h
      rw [h] at hdecode
      exact .inr ⟨encode_userinfo_eq_self_iff.mp h, hdecode⟩
    | some out =>
      rw [urlencodingDecode, hdecode, Option.getD_some] at h
      rw [h] at hdecode
      obtain ⟨out', hout, hvalid⟩ := Option.bind_eq_some_iff.mp hdecode
      rw [fromUtf8_eq_some hvalid] at hout
      exact .inl (unescape_userinfo_iff.mp hout)
  · rintro (h | ⟨hplain, hnone⟩)
    · have hdecode : percentEncodingDecode (encode userinfoSet (utf8 s)) = some (utf8 s) := by
        rw [percentEncodingDecode, unescape_userinfo_iff.mpr h]
        exact fromUtf8_utf8 s
      rw [urlencodingDecode, hdecode, Option.getD_some]
    · rw [urlencodingDecode, encode_eq_self hplain, hnone, Option.getD_none]

/-! ### Paths -/

theorem IsPathSet.hexValue {set : UInt8 → Bool} (h : IsPathSet set) : ∀ b, (hexValue b).isSome → set b = false := by
  intro b hb
  refine h.alphanumeric b ?_
  have hrange := isSome_hexValue_lt hb
  unfold isAlphanumeric
  simp only [Bool.or_eq_true, Bool.and_eq_true, decide_eq_true_eq]
  omega

theorem trimStart_encode {set : UInt8 → Bool} (h : IsPathSet set) (bs : Lib.Bytes) :
    trimStart (encode set bs) = encode set (trimStart bs) := by
  induction bs with
  | nil => rfl
  | cons b bs ih =>
    by_cases hb : b = slash
    · subst hb
      rw [encode_cons_of_not_mem h.slash, trimStart, trimStart, List.dropWhile_cons_of_pos (by simp),
        List.dropWhile_cons_of_pos (by simp)]
      exact ih
    · have hkept : trimStart (b :: bs) = b :: bs := List.dropWhile_cons_of_neg (by simpa using hb)
      rw [hkept]
      cases hset : set b with
      | true =>
        rw [encode_cons_of_mem hset]
        exact List.dropWhile_cons_of_neg (by decide)
      | false =>
        rw [encode_cons_of_not_mem hset]
        exact List.dropWhile_cons_of_neg (by simpa using hb)

/-- A name that is read as it stands in the path. -/
theorem raw_path_iff {set : UInt8 → Bool} (h : IsPathSet set) {special : Bool} {s : Lib.Bytes} :
    trimStart (encode set (path special s)) = s ↔ (∀ b ∈ s, set b = false) ∧ Kept special s := by
  rw [trimStart_encode h]
  constructor
  · intro heq
    have hplain : ∀ b ∈ s, set b = false := by
      intro b hb
      rw [← heq] at hb
      exact not_set_of_mem_encode h.percent (fun n hn => h.hexValue _ (hexDigit_isSome n hn)) hb
    have hpath : ∀ b ∈ trimStart (path special s), set b = false := by
      intro b hb
      rcases mem_path ((List.dropWhile_sublist _).mem hb) with rfl | ⟨hmem, -⟩
      · exact h.slash
      · exact hplain b hmem
    rw [encode_eq_self hpath] at heq
    exact ⟨hplain, trimStart_path_eq_iff.mp heq⟩
  · rintro ⟨hplain, hkept⟩
    rw [hkept.trimStart_path, encode_eq_self hplain]

/-- A name that is decoded once. -/
theorem decoded_path_iff {set : UInt8 → Bool} (h : IsPathSet set) {s : Lib.Bytes} :
    decode hexPair (trimStart (encode set (path false s))) = s ↔ EscapeFree hexPair s ∧ Kept false s := by
  rw [trimStart_encode h, decode_encode (hexPair_fits h.percent h.hexValue)]
  constructor
  · intro heq
    have hdecode : (decode hexPair (trimStart (path false s))).length ≤ (trimStart (path false s)).length :=
      length_decode_le _
    have htrim := length_trimStart_path_le false s
    rw [heq] at hdecode
    have hlength : (trimStart (path false s)).length = s.length := by omega
    obtain ⟨hkept, hsame⟩ := kept_of_length hlength fun h => by cases h
    rw [hsame] at heq
    exact ⟨decode_eq_self_iff.mp heq, hkept⟩
  · rintro ⟨hfree, hkept⟩
    rw [hkept.trimStart_path]
    exact decode_eq_self_iff.mpr hfree

end Jaiba.Connections
