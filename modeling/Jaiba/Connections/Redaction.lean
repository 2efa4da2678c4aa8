import Jaiba.Connections.Redact

/-!
# What redaction hides

A message with a place for a password is followed through the patterns: every
match is found, or not, whatever stands there, as long as the letters of the
password belong to the classes that the patterns run over.
-/

namespace Jaiba.Connections.Redact
open Jaiba.Lib Regex

/-! ### The first pattern -/

/-- The parts of a match: scheme, user and password. -/
structure UrlParts (text : Text) (scheme user password rest : Text) : Prop where
  text_eq : text = scheme ++ ':' :: '/' :: '/' :: (user ++ ':' :: (password ++ '@' :: rest))
  scheme : ∃ c cs, scheme = c :: cs ∧ isLetter c = true ∧ ∀ d ∈ cs, isSchemeChar d = true
  user_ne : user ≠ []
  user : ∀ c ∈ user, isUserChar c = true
  password_ne : password ≠ []
  password : ∀ c ∈ password, isPasswordChar c = true

theorem mem_char {d : Char} {text : Text} {r : Text × Text} :
    r ∈ (char d).steps text ↔ r.1 = [d] ∧ text = d :: r.2 := by
  rw [char, mem_one]
  constructor
  · rintro ⟨c, hc, hr, htext⟩
    rw [of_decide_eq_true hc] at hr htext
    exact ⟨hr, htext⟩
  · rintro ⟨hr, htext⟩
    exact ⟨d, decide_eq_true rfl, hr, htext⟩

theorem mem_seq_char {d : Char} {b : Regex Char} {text : Text} {r : Text × Text} :
    r ∈ (Regex.seq (char d) b).steps text ↔
      ∃ rest taken, text = d :: rest ∧ (taken, r.2) ∈ b.steps rest ∧ r.1 = d :: taken := by
  rw [char, mem_seq_one]
  constructor
  · rintro ⟨c, rest, taken, hc, htext, ht, hr⟩
    rw [of_decide_eq_true hc] at htext hr
    exact ⟨rest, taken, htext, ht, hr⟩
  · rintro ⟨rest, taken, htext, ht, hr⟩
    exact ⟨d, rest, taken, decide_eq_true rfl, htext, ht, hr⟩

theorem urlRule_plain : urlRule.Plain where
  starts _ _ := rfl
  masks text r h := by
    obtain ⟨s, hs, t, -, rfl⟩ := mem_seq.mp h
    obtain ⟨hne, -⟩ := mem_plus.mp hs
    exact fun hnil => hne (List.append_eq_nil_iff.mp hnil).1

theorem mem_urlKept {text kept middle : Text} : (kept, middle) ∈ urlRule.kept.steps text ↔ ∃ scheme user : Text,
    (∃ c cs, scheme = c :: cs ∧ isLetter c = true ∧ ∀ d ∈ cs, isSchemeChar d = true) ∧
    user ≠ [] ∧ (∀ c ∈ user, isUserChar c = true) ∧ kept = scheme ++ ':' :: '/' :: '/' :: (user ++ [':']) ∧
    text = scheme ++ ':' :: '/' :: '/' :: (user ++ ':' :: middle) := by
  simp only [urlRule, mem_seq_one, mem_seq_many, mem_seq_char, mem_seq_plus, mem_char]
  constructor
  · rintro ⟨c, _, _, hc, rfl, ⟨cs, _, _, hcs, rfl, ⟨_, _, rfl, ⟨_, _, rfl, ⟨_, _, rfl, ⟨user, _, _, hne, huser, rfl,
      ⟨rfl, rfl⟩, rfl⟩, rfl⟩, rfl⟩, rfl⟩, rfl⟩, rfl⟩
    exact ⟨c :: cs, user, ⟨c, cs, rfl, hc, hcs⟩, hne, huser, rfl, rfl⟩
  · rintro ⟨_, user, ⟨c, cs, rfl, hc, hcs⟩, hne, huser, rfl, rfl⟩
    exact ⟨c, _, _, hc, rfl, ⟨cs, _, _, hcs, rfl, ⟨_, _, rfl, ⟨_, _, rfl, ⟨_, _, rfl, ⟨user, _, _, hne, huser, rfl,
      ⟨rfl, rfl⟩, rfl⟩, rfl⟩, rfl⟩, rfl⟩, rfl⟩, rfl⟩

theorem mem_urlMasked {middle masked rest : Text} : (masked, rest) ∈ urlRule.masked.steps middle ↔
    ∃ password : Text, password ≠ [] ∧ (∀ c ∈ password, isPasswordChar c = true) ∧ masked = password ++ ['@'] ∧
      middle = password ++ '@' :: rest := by
  simp only [urlRule, mem_seq_plus, mem_char]
  constructor
  · rintro ⟨password, _, _, hne, hall, rfl, ⟨rfl, rfl⟩, rfl⟩
    exact ⟨password, hne, hall, rfl, rfl⟩
  · rintro ⟨password, hne, hall, rfl, rfl⟩
    exact ⟨password, _, _, hne, hall, rfl, ⟨rfl, rfl⟩, rfl⟩

theorem UrlParts.unique {text scheme user password rest scheme' user' password' rest' : Text}
    (h : UrlParts text scheme user password rest) (h' : UrlParts text scheme' user' password' rest') :
    scheme = scheme' ∧ user = user' ∧ password = password' ∧ rest = rest' := by
  obtain ⟨c, cs, rfl, -, hcs⟩ := h.scheme
  obtain ⟨c', cs', rfl, -, hcs'⟩ := h'.scheme
  have htext := h.text_eq.symm.trans h'.text_eq
  obtain ⟨rfl, htail⟩ := List.cons.inj htext
  obtain ⟨rfl, -, hslashes⟩ := run_unique hcs hcs' (show isSchemeChar ':' = false by decide)
    (show isSchemeChar ':' = false by decide) htail
  have huser := (List.cons.inj (List.cons.inj hslashes).2).2
  obtain ⟨rfl, -, hpassword⟩ := run_unique h.user h'.user (show isUserChar ':' = false by decide)
    (show isUserChar ':' = false by decide) huser
  obtain ⟨rfl, -, rfl⟩ := run_unique h.password h'.password (show isPasswordChar '@' = false by decide)
    (show isPasswordChar '@' = false by decide) hpassword
  exact ⟨rfl, rfl, rfl, rfl⟩

/-- A match of the first pattern, and what it keeps. -/
theorem url_matchAt_iff {text kept rest : Text} :
    (∃ masked, urlRule.matchAt none text = some (kept, masked, rest)) ↔ ∃ scheme user password,
      UrlParts text scheme user password rest ∧ kept = scheme ++ ':' :: '/' :: '/' :: (user ++ [':']) := by
  have hparts : ∀ {kept masked rest : Text}, urlRule.matchAt none text = some (kept, masked, rest) →
      ∃ scheme user password, UrlParts text scheme user password rest ∧
        kept = scheme ++ ':' :: '/' :: '/' :: (user ++ [':']) := by
    intro kept masked rest h
    obtain ⟨middle, hkept, hmasked⟩ := Rule.mem_of_matchAt h
    obtain ⟨scheme, user, hscheme, hne, huser, rfl, rfl⟩ := mem_urlKept.mp hkept
    obtain ⟨password, hpne, hpassword, rfl, rfl⟩ := mem_urlMasked.mp hmasked
    exact ⟨scheme, user, password, ⟨rfl, hscheme, hne, huser, hpne, hpassword⟩, rfl⟩
  constructor
  · rintro ⟨masked, h⟩
    exact hparts h
  · rintro ⟨scheme, user, password, h, rfl⟩
    have hsome := Rule.matchAt_isSome urlRule (show urlRule.starts none text = true from rfl)
      (mem_urlKept.mpr ⟨scheme, user, h.scheme, h.user_ne, h.user, rfl, h.text_eq⟩)
      (mem_urlMasked.mpr ⟨password, h.password_ne, h.password, rfl, rfl⟩)
    obtain ⟨⟨kept, masked, rest'⟩, hmatch⟩ := Option.isSome_iff_exists.mp hsome
    obtain ⟨scheme', user', password', h', rfl⟩ := hparts hmatch
    obtain ⟨rfl, rfl, -, rfl⟩ := h.unique h'
    exact ⟨masked, hmatch⟩

/-- A text in which no match begins up to `rest`. -/
theorem url_passed {w rest : Text}
    (h : ∀ u c z, w = u ++ c :: z → ∀ scheme user password after,
      ¬ UrlParts (c :: z ++ rest) scheme user password after) :
    urlRule.replaceAll (w ++ rest) = w ++ urlRule.replaceAll rest := by
  induction w with
  | nil => rfl
  | cons c w ih =>
    have hnone : urlRule.matchAt none (c :: (w ++ rest)) = none := by
      cases hmatch : urlRule.matchAt none (c :: (w ++ rest)) with
      | none => rfl
      | some m =>
        obtain ⟨kept, masked, after⟩ := m
        obtain ⟨scheme, user, password, hparts, -⟩ := url_matchAt_iff.mp ⟨masked, hmatch⟩
        exact absurd hparts (h [] c w rfl scheme user password after)
    rw [List.cons_append, urlRule_plain.replaceAll_none hnone, ih, List.cons_append]
    intro u d z hw
    exact h (c :: u) d z (by rw [hw, List.cons_append])

theorem url_replaceAll {text scheme user password rest : Text} (h : UrlParts text scheme user password rest) :
    urlRule.replaceAll text =
      scheme ++ ':' :: '/' :: '/' :: (user ++ [':']) ++ ['*', '*', '*', '@'] ++ urlRule.replaceAll rest := by
  obtain ⟨masked, hmatch⟩ := url_matchAt_iff.mpr ⟨scheme, user, password, h, rfl⟩
  exact urlRule_plain.replaceAll_some hmatch

theorem url_replaceAll_none {c : Char} {text : Text}
    (h : ∀ scheme user password rest, ¬ UrlParts (c :: text) scheme user password rest) :
    urlRule.replaceAll (c :: text) = c :: urlRule.replaceAll text := by
  have hpassed : urlRule.replaceAll ([c] ++ text) = [c] ++ urlRule.replaceAll text := by
    refine url_passed fun u d z hw => ?_
    cases u with
    | nil =>
      obtain ⟨rfl, rfl⟩ := List.cons.inj hw
      exact h
    | cons e u => cases u <;> cases hw
  exact hpassed

/-! ### A password in a URL -/

/-- A scheme as the pattern reads it. -/
def IsScheme (scheme : Text) : Prop := ∃ c cs, scheme = c :: cs ∧ isLetter c = true ∧ ∀ d ∈ cs, isSchemeChar d = true

theorem IsScheme.chars {scheme : Text} (h : IsScheme scheme) : ∀ c ∈ scheme, isSchemeChar c = true := by
  obtain ⟨c, cs, rfl, hc, hcs⟩ := h
  intro d hd
  rcases List.mem_cons.mp hd with rfl | hd
  · simp [isSchemeChar, hc]
  · exact hcs d hd

/-- `://user:password@` and what follows. -/
def authority (user password post : Text) : Text :=
  ':' :: '/' :: '/' :: (user ++ ':' :: (password ++ '@' :: post))

/-- A letter that is not of the scheme stands before it. -/
theorem before_scheme {before scheme run rest : Text} {d : Char} (hscheme : ∀ c ∈ scheme, isSchemeChar c = true)
    (hd : isSchemeChar d = false) (h : run ++ d :: rest = before ++ scheme) :
    ∃ more, before = run ++ d :: more ∧ rest = more ++ scheme := by
  rcases cut h with hfirst | ⟨more, -, hsecond⟩
  · exact hfirst
  · rw [hscheme d (by rw [hsecond]; simp)] at hd
    cases hd

theorem not_mem_of_class {p : Char → Bool} {w : Text} {d : Char} (hw : ∀ c ∈ w, p c = true) (hd : p d = false) : d ∉ w := by
  intro hmem
  rw [hw d hmem] at hd
  cases hd

section Url

variable {scheme user post : Text} (hscheme : IsScheme scheme) (hne : user ≠ []) (huser : ∀ c ∈ user, isUserChar c = true)

include hscheme huser

/-- A match that begins before the scheme or with it ends before it, or masks the password. -/
theorem url_parts_cases {before password s u q rest : Text} (hpassword : ∀ c ∈ password, isPasswordChar c = true)
    (h : UrlParts (before ++ scheme ++ authority user password post) s u q rest) :
    (∃ before' q', before'.length < before.length ∧ rest = before' ++ scheme ++ authority user password post ∧
      ∀ password', UrlParts (before ++ scheme ++ authority user password' post) s u q'
        (before' ++ scheme ++ authority user password' post)) ∨
    s = before ++ scheme ∧ u = user ∧ q = password ∧ rest = post := by
  have hs := (show IsScheme s from h.scheme).chars
  have hslash : isSchemeChar '/' = false := by decide
  have hcolon : isSchemeChar ':' = false := by decide
  have hat : isSchemeChar '@' = false := by decide
  have hhead : ∀ {d : Char} {w x : Text}, d :: w = scheme ++ x → isSchemeChar d = true := by
    intro d w x heq
    obtain ⟨c, cs, rfl, hc, -⟩ := hscheme
    rw [(List.cons.inj heq).1]
    simp [isSchemeChar, hc]
  rcases cut h.text_eq.symm with ⟨more, hbefore, hrest⟩ | ⟨more, rfl, hrest⟩
  · -- the scheme of the match ends before
    obtain ⟨y1, rfl, rfl⟩ := before_scheme hscheme.chars hcolon hbefore.symm
    cases y1 with
    | nil =>
      rw [List.nil_append] at hrest
      rw [hhead hrest] at hslash
      cases hslash
    | cons e y1 =>
      obtain ⟨rfl, hsecond⟩ := List.cons.inj hrest
      cases y1 with
      | nil =>
        have hfirst := hhead (show '/' :: (u ++ ':' :: (q ++ '@' :: rest)) = scheme ++ _ from hsecond)
        rw [hfirst] at hslash
        cases hslash
      | cons e y3 =>
        obtain ⟨rfl, hthird⟩ := List.cons.inj hsecond
        have hrest : u ++ ':' :: (q ++ '@' :: rest) = (y3 ++ scheme) ++ authority user password post := hthird
        rcases cut hrest with ⟨more, hu, hpass⟩ | ⟨more, rfl, hreach⟩
        · obtain ⟨y4, rfl, rfl⟩ := before_scheme hscheme.chars hcolon hu.symm
          rcases cut hpass with ⟨more, hq, rfl⟩ | ⟨more, rfl, hover⟩
          · obtain ⟨y5, rfl, rfl⟩ := before_scheme hscheme.chars hat hq.symm
            refine .inl ⟨y5, q, ?_, rfl, fun password' => ⟨?_, h.scheme, h.user_ne, h.user, h.password_ne, h.password⟩⟩
            · simp only [List.length_append, List.length_cons]
              omega
            · simp only [List.append_assoc, List.cons_append]
          · -- the password of the match would hold the slashes
            exfalso
            have hnot := not_mem_of_class h.password (show isPasswordChar '/' = false by decide)
            rw [authority] at hover
            cases more with
            | nil => cases hover
            | cons e more =>
              obtain ⟨rfl, hslashes⟩ := List.cons.inj hover
              cases more with
              | nil => cases hslashes
              | cons e more =>
                obtain ⟨rfl, -⟩ := List.cons.inj hslashes
                exact hnot (by simp)
        · -- the user of the match would reach the scheme's colon
          exfalso
          rw [authority] at hreach
          cases more with
          | nil =>
            have hpass := (List.cons.inj hreach).2
            obtain ⟨e, q', rfl⟩ := List.exists_cons_of_ne_nil h.password_ne
            have he := h.password e List.mem_cons_self
            rw [← (List.cons.inj hpass).1] at he
            exact absurd he (by decide)
          | cons e more =>
            obtain ⟨rfl, -⟩ := List.cons.inj hreach
            exact not_mem_of_class h.user (show isUserChar ':' = false by decide) (by simp)
  · -- the scheme of the match is the one before the password, begun earlier
    cases more with
    | nil =>
      have htail := (List.cons.inj (List.cons.inj (List.cons.inj hrest).2).2).2
      obtain ⟨rfl, -, hpass⟩ := run_unique huser h.user (show isUserChar ':' = false by decide)
        (show isUserChar ':' = false by decide) htail
      obtain ⟨rfl, -, rfl⟩ := run_unique hpassword h.password (show isPasswordChar '@' = false by decide)
        (show isPasswordChar '@' = false by decide) hpass
      exact .inr ⟨List.append_nil _, rfl, rfl, rfl⟩
    | cons e more =>
      obtain ⟨rfl, -⟩ := List.cons.inj hrest
      rw [hs ':' (by simp)] at hcolon
      cases hcolon

include hne

/-- The first pattern gives one text for all passwords of the class. -/
theorem url_hidden (before : Text) {password password' : Text} (hp : password ≠ [])
    (hpassword : ∀ c ∈ password, isPasswordChar c = true) (hp' : password' ≠ [])
    (hpassword' : ∀ c ∈ password', isPasswordChar c = true) :
    urlRule.replaceAll (before ++ scheme ++ authority user password post) =
      urlRule.replaceAll (before ++ scheme ++ authority user password' post) := by
  induction hn : before.length using Nat.strong_induction_on generalizing before with
  | _ n ih =>
    have hmasked : ∀ {s : Text}, s = before ++ scheme → IsScheme s → ∀ {p : Text}, p ≠ [] →
        (∀ c ∈ p, isPasswordChar c = true) → UrlParts (before ++ scheme ++ authority user p post) s user p post := by
      rintro s rfl hs p hne' hall
      exact ⟨rfl, hs, hne, huser, hne', hall⟩
    by_cases hparts : ∃ s u q rest, UrlParts (before ++ scheme ++ authority user password post) s u q rest
    · obtain ⟨s, u, q, rest, h⟩ := hparts
      rcases url_parts_cases hscheme huser hpassword h with ⟨before', q', hlt, -, hall⟩ | ⟨hs, -, -, -⟩
      · rw [url_replaceAll (hall password), url_replaceAll (hall password'), ih _ (hn ▸ hlt) before' rfl]
      · have hscheme' : IsScheme s := h.scheme
        rw [url_replaceAll (hmasked hs hscheme' hp hpassword), url_replaceAll (hmasked hs hscheme' hp' hpassword')]
    · have hparts' : ¬ ∃ s u q rest, UrlParts (before ++ scheme ++ authority user password' post) s u q rest := by
        rintro ⟨s, u, q, rest, h⟩
        rcases url_parts_cases hscheme huser hpassword' h with ⟨before', q', -, -, hall⟩ | ⟨hs, -, -, -⟩
        · exact hparts ⟨s, u, q', _, hall password⟩
        · exact hparts ⟨s, user, password, post, hmasked hs h.scheme hp hpassword⟩
      cases before with
      | nil => exact absurd ⟨scheme, user, password, post, hmasked rfl hscheme hp hpassword⟩ hparts
      | cons c before =>
        have hnext := ih before.length (by rw [← hn, List.length_cons]; omega) before rfl
        have hnone := url_replaceAll_none fun s u q rest h => hparts ⟨s, u, q, rest, h⟩
        have hnone' := url_replaceAll_none fun s u q rest h => hparts' ⟨s, u, q, rest, h⟩
        exact hnone.trans ((congrArg (c :: ·) hnext).trans hnone'.symm)

end Url

end Jaiba.Connections.Redact
