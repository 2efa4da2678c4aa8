import Jaiba.Connections.Redaction

/-!
# The value of a pair

A value in `key=value` goes through the first pattern as it is, or is masked
with the password of a URL around it; the second pattern then masks it. No
match of either pattern depends on it.
-/

namespace Jaiba.Connections.Redact
open Jaiba.Lib Regex

/-! ### The classes -/

/-- The letters of the keywords. -/
def isKeyChar (c : Char) : Bool := isLetter c || c = '_' || c = '-'

theorem not_space_of_letter {c : Char} (h : isLetter c = true) : isSpace c = false := by
  have hbounds : ∀ {d : Char}, d.isLower = true → 97 ≤ d.toNat ∧ d.toNat ≤ 122 := by
    intro d hd
    have hlower : d.isLower = (decide ('a'.val ≤ d.val) && decide (d.val ≤ 'z'.val)) := rfl
    rw [hlower, Bool.and_eq_true, decide_eq_true_eq, decide_eq_true_eq] at hd
    exact ⟨hd.1, hd.2⟩
  have hnat : (65 ≤ c.toNat ∧ c.toNat ≤ 122) ∨ c.toNat = 383 ∨ c.toNat = 8490 := by
    unfold isLetter fold at h
    split at h
    next hupper =>
      have hrange : c.isUpper = decide ('A'.val ≤ c.val ∧ c.val ≤ 'Z'.val) := rfl
      rw [hrange, decide_eq_true_eq] at hupper
      have hle : c.toNat ≤ 90 := hupper.2
      exact .inl ⟨hupper.1, by omega⟩
    · split at h
      next heq =>
        rw [heq]
        exact .inr (.inl rfl)
      · split at h
        next heq =>
          rw [heq]
          exact .inr (.inr rfl)
        · have hrange := hbounds h
          exact .inl ⟨by omega, hrange.2⟩
  unfold isSpace Server.SqlBuilder.isWhitespace
  simp only [Bool.or_eq_false_iff, Bool.and_eq_false_iff, decide_eq_false_iff_not, beq_eq_false_iff_ne]
  omega

theorem not_space_of_scheme {c : Char} (h : isSchemeChar c = true) : isSpace c = false := by
  unfold isSchemeChar at h
  simp only [Bool.or_eq_true, decide_eq_true_eq] at h
  rcases h with (((h | h) | rfl) | rfl) | rfl
  · exact not_space_of_letter h
  · have hdigit : c.isDigit = (decide ('0'.val ≤ c.val) && decide (c.val ≤ '9'.val)) := rfl
    rw [hdigit, Bool.and_eq_true, decide_eq_true_eq, decide_eq_true_eq] at h
    have hlow : 48 ≤ c.toNat := h.1
    have hhigh : c.toNat ≤ 57 := h.2
    unfold isSpace Server.SqlBuilder.isWhitespace
    simp only [Bool.or_eq_false_iff, Bool.and_eq_false_iff, decide_eq_false_iff_not, beq_eq_false_iff_ne]
    omega
  · decide
  · decide
  · decide

/-- A letter of a scheme or of a keyword ends no run of the patterns. -/
theorem plain_classes {c : Char} (h : isSchemeChar c = true ∨ c = '_') :
    isUserChar c = true ∧ isPasswordChar c = true ∧ isValueChar c = true ∧ isAssign c = false ∧ isSpace c = false := by
  have hspace : isSpace c = false := by
    rcases h with h | rfl
    · exact not_space_of_scheme h
    · decide
  have hne : ∀ d : Char, isSchemeChar d = false → d ≠ '_' → c ≠ d := by
    rintro d hd hd' rfl
    rcases h with h | h
    · rw [hd] at h
      cases h
    · exact hd' h
  have hcolon := hne ':' (by decide) (by decide)
  have hslash := hne '/' (by decide) (by decide)
  refine ⟨?_, ?_, ?_, ?_, hspace⟩
  · simp [isUserChar, hspace, hcolon, hslash, hne '?' (by decide) (by decide), hne '#' (by decide) (by decide)]
  · simp [isPasswordChar, hspace, hslash, hne '@' (by decide) (by decide)]
  · simp [isValueChar, hspace, hne ',' (by decide) (by decide), hne '&' (by decide) (by decide),
      hne ';' (by decide) (by decide)]
  · simp [isAssign, hcolon, hne '=' (by decide) (by decide)]

theorem isKeyChar.classes {c : Char} (h : isKeyChar c = true) :
    isUserChar c = true ∧ isPasswordChar c = true ∧ isValueChar c = true ∧ isAssign c = false ∧ isSpace c = false := by
  unfold isKeyChar at h
  simp only [Bool.or_eq_true, decide_eq_true_eq] at h
  rcases h with (h | h) | rfl
  · exact plain_classes (.inl (by simp [isSchemeChar, h]))
  · exact plain_classes (.inr h)
  · exact plain_classes (.inl (by decide))

theorem assign_cases {sep : Char} (h : isAssign sep = true) : sep = '=' ∨ sep = ':' := by
  simpa [isAssign] using h

/-- The text ends or goes on with a letter that no value holds. -/
def EndsValue (text : Text) : Prop := ∀ c ∈ text.head?, isValueChar c = false

theorem EndsValue.head {c : Char} {text : Text} (h : EndsValue (c :: text)) : isValueChar c = false := h c rfl

theorem EndsValue.not_scheme {c : Char} {text : Text} (h : EndsValue (c :: text)) : isSchemeChar c = false := by
  by_contra hscheme
  rw [Bool.not_eq_false] at hscheme
  have hvalue := (plain_classes (.inl hscheme)).2.2.1
  rw [h.head] at hvalue
  cases hvalue

/-- A value whose letters no run of the first two patterns ends at. -/
structure CleanValue (value : Text) : Prop where
  ne : value ≠ []
  user : ∀ c ∈ value, isUserChar c = true
  password : ∀ c ∈ value, isPasswordChar c = true
  value : ∀ c ∈ value, isValueChar c = true

/-! ### A pair and the first pattern -/

/-- `key=value` and what follows. -/
def assignment (key : Text) (sep : Char) (value post : Text) : Text := key ++ sep :: (value ++ post)

theorem value_not_scheme {value post more rest : Text} (hcolon : ':' ∉ value) (hpost : EndsValue post)
    (hmore : ∀ c ∈ more, isSchemeChar c = true) : value ++ post ≠ more ++ ':' :: rest := by
  intro h
  rcases cut h.symm with ⟨k, hk, -⟩ | ⟨k, rfl, rfl⟩
  · exact hcolon (by rw [hk]; simp)
  · cases k with
    | nil => exact absurd hpost.head (by decide)
    | cons e k =>
      have hscheme := hmore e (by simp)
      rw [hpost.not_scheme] at hscheme
      cases hscheme

section Pair

variable {key post : Text} {sep : Char} (hkey : ∀ c ∈ key, isKeyChar c = true) (hsep : isAssign sep = true)
  (hpost : EndsValue post)

include hkey

theorem key_head {d e : Char} {w rest : Text} (hd : isKeyChar d = false) (hne : key ≠ []) :
    d :: w ≠ assignment key e rest post := by
  intro h
  obtain ⟨c, key, rfl⟩ := List.exists_cons_of_ne_nil hne
  have hc := hkey c List.mem_cons_self
  rw [← (List.cons.inj h).1, hd] at hc
  cases hc

include hsep

/-- No scheme reaches into the value of a pair. -/
theorem assignment_not_scheme {value more rest : Text} (hvalue : value ≠ []) (huser : ∀ c ∈ value, isUserChar c = true)
    (hmore : ∀ c ∈ more, isSchemeChar c = true) :
    assignment key sep value post ≠ more ++ ':' :: '/' :: rest := by
  intro h
  rcases cut h.symm with ⟨k, hk, -⟩ | ⟨k, rfl, hk⟩
  · have hcolon := (hkey ':' (by rw [hk]; simp))
    exact absurd hcolon (by decide)
  · cases k with
    | nil =>
      have hslash := (List.cons.inj hk).2
      obtain ⟨c, value, rfl⟩ := List.exists_cons_of_ne_nil hvalue
      have hc := huser c List.mem_cons_self
      rw [(List.cons.inj hslash).1] at hc
      exact absurd hc (by decide)
    | cons e k =>
      obtain ⟨rfl, -⟩ := List.cons.inj hk
      have hscheme := hmore sep (by simp)
      rcases assign_cases hsep with rfl | rfl <;> exact absurd hscheme (by decide)

include hpost

/-- A match of the first pattern that begins before a pair ends before it, masks it or keeps it whole. -/
theorem url_pair_cases (hne : key ≠ []) {before value s u q rest : Text} (hvalue : CleanValue value)
    (h : UrlParts (before ++ assignment key sep value post) s u q rest) :
    (∃ before' : Text, before'.length < before.length ∧
      ∀ value', UrlParts (before ++ assignment key sep value' post) s u q (before' ++ assignment key sep value' post)) ∨
    (∃ f : Text → Text, ∀ value', CleanValue value' →
      UrlParts (before ++ assignment key sep value' post) s u (f value') rest) ∨
    ∃ w d more, isValueChar d = false ∧ ∀ value', CleanValue value' →
      UrlParts (before ++ assignment key sep value' post) s (w ++ assignment key sep value' (d :: more)) q rest := by
  have hs := (show IsScheme s from h.scheme).chars
  have hat : '@' ∉ key ++ sep :: value := by
    intro hmem
    rcases List.mem_append.mp hmem with hmem | hmem
    · exact absurd (hkey _ hmem) (by decide)
    · rcases List.mem_cons.mp hmem with rfl | hmem
      · exact absurd hsep (by decide)
      · exact absurd (hvalue.password _ hmem) (by decide)
  have hcolonKey : ':' ∉ key := fun hmem => absurd (hkey _ hmem) (by decide)
  have hcolonValue : ':' ∉ value := fun hmem => absurd (hvalue.user _ hmem) (by decide)
  have hsepPassword : isPasswordChar sep = true := by rcases assign_cases hsep with rfl | rfl <;> decide
  rcases cut h.text_eq.symm with ⟨y1, rfl, hslashes⟩ | ⟨more, rfl, hreach⟩
  · cases y1 with
    | nil => exact absurd hslashes (key_head hkey (by decide) hne)
    | cons e y1 =>
      obtain ⟨rfl, hsecond⟩ := List.cons.inj hslashes
      cases y1 with
      | nil => exact absurd hsecond (key_head hkey (by decide) hne)
      | cons e y3 =>
        obtain ⟨rfl, hthird⟩ := List.cons.inj hsecond
        have huser : u ++ ':' :: (q ++ '@' :: rest) = y3 ++ assignment key sep value post := hthird
        rcases cut huser with ⟨y4, rfl, hpass⟩ | ⟨more, rfl, hreach⟩
        · rcases cut hpass with ⟨y5, rfl, rfl⟩ | ⟨more, rfl, hover⟩
          · -- the match ends before the pair
            refine .inl ⟨y5, ?_, fun value' => ⟨?_, h.scheme, h.user_ne, h.user, h.password_ne, h.password⟩⟩
            · simp only [List.length_append, List.length_cons]
              omega
            · simp only [List.append_assoc, List.cons_append]
          · -- the password of the match takes the pair
            have hwhole : more ++ '@' :: rest = (key ++ sep :: value) ++ post := by
              rw [← hover, assignment, List.append_assoc, List.cons_append]
            rcases cut hwhole with ⟨k, hk, -⟩ | ⟨k, rfl, rfl⟩
            · exact absurd (by rw [hk]; simp) hat
            · refine .inr (.inl ⟨fun value' => y4 ++ ((key ++ sep :: value') ++ k), fun value' hvalue' => ?_⟩)
              refine ⟨?_, h.scheme, h.user_ne, h.user, ?_, ?_⟩
              · simp only [assignment, List.append_assoc, List.cons_append]
              · simp
              · intro c hc
                have hold := h.password c
                simp only [List.mem_append, List.mem_cons] at hc hold
                rcases hc with hc | (hc | rfl | hc) | hc
                · exact hold (.inl hc)
                · exact (isKeyChar.classes (hkey c hc)).2.1
                · exact hsepPassword
                · exact hvalue'.password c hc
                · exact hold (.inr (.inr hc))
        · rcases cut hreach.symm with ⟨k, hk, -⟩ | ⟨k, rfl, hk⟩
          · exact absurd (by rw [hk]; simp) hcolonKey
          · cases k with
            | nil =>
              -- the separator ends the user, the value is in the password
              obtain ⟨rfl, hrest⟩ := List.cons.inj hk
              rcases cut hrest.symm with ⟨m, hm, -⟩ | ⟨m, rfl, rfl⟩
              · exact absurd (by rw [hm]; simp) hat
              · refine .inr (.inl ⟨fun value' => value' ++ m, fun value' hvalue' => ?_⟩)
                refine ⟨?_, h.scheme, h.user_ne, h.user, ?_, ?_⟩
                · simp only [assignment, List.append_assoc, List.cons_append, List.nil_append]
                · exact fun hnil => hvalue'.ne (List.append_eq_nil_iff.mp hnil).1
                · intro c hc
                  rcases List.mem_append.mp hc with hc | hc
                  · exact hvalue'.password c hc
                  · exact h.password c (List.mem_append_right value hc)
            | cons e k =>
              obtain ⟨rfl, hrest⟩ := List.cons.inj hk
              rcases cut hrest.symm with ⟨m, hm, -⟩ | ⟨m, rfl, rfl⟩
              · exact absurd (by rw [hm]; simp) hcolonValue
              · -- the user of the match takes the pair
                cases m with
                | nil => exact absurd hpost.head (by decide)
                | cons d m =>
                  refine .inr (.inr ⟨y3, d, m, hpost.head, fun value' hvalue' => ?_⟩)
                  refine ⟨?_, h.scheme, ?_, ?_, h.password_ne, h.password⟩
                  · simp only [assignment, List.append_assoc, List.cons_append]
                  · simp [assignment]
                  · intro c hc
                    have hold := h.user c
                    simp only [assignment, List.mem_append, List.mem_cons] at hc hold
                    rcases hc with hc | hc | rfl | hc | hc
                    · exact hold (.inl hc)
                    · exact hold (.inr (.inl hc))
                    · exact hold (.inr (.inr (.inl rfl)))
                    · exact hvalue'.user c hc
                    · exact hold (.inr (.inr (.inr (.inr hc))))
  · exact absurd hreach (assignment_not_scheme hkey hsep hvalue.ne hvalue.user fun c hc =>
      hs c (List.mem_append_right before hc))

/-- No match of the first pattern begins in a pair. -/
theorem url_assignment {value : Text} (hvalue : CleanValue value) :
    urlRule.replaceAll (assignment key sep value post) = assignment key sep value (urlRule.replaceAll post) := by
  have hcolon : ':' ∉ value := fun hmem => absurd (hvalue.user _ hmem) (by decide)
  have hsplit : assignment key sep value post = (key ++ sep :: value) ++ post := by
    rw [assignment, List.append_assoc, List.cons_append]
  have hpassed : urlRule.replaceAll ((key ++ sep :: value) ++ post) =
      (key ++ sep :: value) ++ urlRule.replaceAll post := by
    refine url_passed fun u c z hw s user q rest h => ?_
    have hs := (show IsScheme s from h.scheme).chars
    rcases cut hw.symm with ⟨k, hk, rfl⟩ | ⟨k, rfl, hk⟩
    · -- in the key
      have hkey' : ∀ d ∈ c :: k, isKeyChar d = true := by
        intro d hd
        refine hkey d ?_
        rw [hk]
        exact List.mem_append_right u hd
      have htext : c :: (k ++ sep :: value) ++ post = assignment (c :: k) sep value post := by
        simp only [assignment, List.append_assoc, List.cons_append]
      exact assignment_not_scheme hkey' hsep hvalue.ne hvalue.user hs (htext.symm.trans h.text_eq)
    · cases k with
      | nil =>
        -- at the separator
        obtain ⟨rfl, rfl⟩ := List.cons.inj hk
        exact assignment_not_scheme (show ∀ d ∈ ([] : Text), isKeyChar d = true from fun d hd => absurd hd List.not_mem_nil) hsep hvalue.ne hvalue.user hs
          h.text_eq
      | cons e k =>
        -- in the value
        obtain ⟨rfl, rfl⟩ := List.cons.inj hk
        exact value_not_scheme (fun hmem => hcolon (List.mem_append_right k hmem)) hpost hs h.text_eq
  rw [hsplit, hpassed, assignment, List.append_assoc, List.cons_append]

omit hkey hsep in
/-- What follows a value still ends it after the first pattern. -/
theorem url_endsValue : EndsValue (urlRule.replaceAll post) := by
  cases post with
  | nil => exact hpost
  | cons d post =>
    have hnone : ∀ scheme user password rest, ¬ UrlParts (d :: post) scheme user password rest := by
      intro scheme user password rest h
      obtain ⟨c, cs, rfl, hc, -⟩ := h.scheme
      have hscheme := hpost.not_scheme
      rw [(List.cons.inj h.text_eq).1] at hscheme
      simp [isSchemeChar, hc] at hscheme
    rw [url_replaceAll_none hnone]
    exact hpost

/-- After the first pattern the value is masked, or stands whole in its pair. -/
theorem url_pair_outcome (hne : key ≠ []) (before : Text) :
    (∃ out, ∀ value, CleanValue value → urlRule.replaceAll (before ++ assignment key sep value post) = out) ∨
      ∃ before' post' : Text, EndsValue post' ∧ ∀ value, CleanValue value →
        urlRule.replaceAll (before ++ assignment key sep value post) = before' ++ assignment key sep value post' := by
  induction hn : before.length using Nat.strong_induction_on generalizing before with
  | _ n ih =>
    by_cases hparts : ∃ value, CleanValue value ∧
        ∃ s u q rest, UrlParts (before ++ assignment key sep value post) s u q rest
    · obtain ⟨value, hvalue, s, u, q, rest, h⟩ := hparts
      rcases url_pair_cases hkey hsep hpost hne hvalue h with ⟨before', hlt, hall⟩ | ⟨f, hall⟩ | ⟨w, d, more, hd, hall⟩
      · rcases ih _ (hn ▸ hlt) before' rfl with ⟨out, hout⟩ | ⟨w, post', hpost', hout⟩
        · refine .inl ⟨s ++ ':' :: '/' :: '/' :: (u ++ [':']) ++ ['*', '*', '*', '@'] ++ out, fun value' hvalue' => ?_⟩
          rw [url_replaceAll (hall value'), hout value' hvalue']
        · refine .inr ⟨s ++ ':' :: '/' :: '/' :: (u ++ [':']) ++ ['*', '*', '*', '@'] ++ w, post', hpost',
            fun value' hvalue' => ?_⟩
          rw [url_replaceAll (hall value'), hout value' hvalue', List.append_assoc _ w]
      · exact .inl ⟨_, fun value' hvalue' => url_replaceAll (hall value' hvalue')⟩
      · refine .inr ⟨s ++ ':' :: '/' :: '/' :: w, d :: (more ++ [':'] ++ ['*', '*', '*', '@'] ++ urlRule.replaceAll rest),
          ?_, fun value' hvalue' => ?_⟩
        · intro c hc
          cases hc
          exact hd
        · rw [url_replaceAll (hall value' hvalue')]
          simp only [assignment, List.append_assoc, List.cons_append, List.nil_append]
    · have hnone : ∀ value, CleanValue value → ∀ s u q rest,
          ¬ UrlParts (before ++ assignment key sep value post) s u q rest :=
        fun value hvalue s u q rest h => hparts ⟨value, hvalue, s, u, q, rest, h⟩
      cases before with
      | nil =>
        refine .inr ⟨[], urlRule.replaceAll post, url_endsValue hpost, fun value hvalue => ?_⟩
        exact url_assignment hkey hsep hpost hvalue
      | cons c before =>
        have hstep : ∀ value, CleanValue value → urlRule.replaceAll (c :: before ++ assignment key sep value post) =
            c :: urlRule.replaceAll (before ++ assignment key sep value post) :=
          fun value hvalue => url_replaceAll_none (hnone value hvalue)
        rcases ih before.length (by rw [← hn, List.length_cons]; omega) before rfl with
          ⟨out, hout⟩ | ⟨w, post', hpost', hout⟩
        · exact .inl ⟨c :: out, fun value hvalue => by rw [hstep value hvalue, hout value hvalue]⟩
        · refine .inr ⟨c :: w, post', hpost', fun value hvalue => ?_⟩
          rw [hstep value hvalue, hout value hvalue, List.cons_append]

end Pair

end Jaiba.Connections.Redact
