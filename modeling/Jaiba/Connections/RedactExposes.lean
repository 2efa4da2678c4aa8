import Jaiba.Connections.RedactHides

/-!
# What redaction does not hide

What the patterns pass stays in front of what they make of the rest. So a
password that ends the run of the first pattern stays in the message, and a
value with such a letter is redacted in one message and not in another.
-/

namespace Jaiba.Connections.Redact
open Jaiba.Lib Regex

/-- `\w` on ASCII. -/
def asciiWord (c : Char) : Bool := c.isAlphanum || c = '_'

/-- `\w` is a Unicode class; on ASCII it is the letters, the digits and `_`. -/
def IsWordClass (isWord : Char → Bool) : Prop := ∀ c : Char, c.toNat < 128 → isWord c = asciiWord c

/-- `[\w.%+-]`. -/
def isNameChar (isWord : Char → Bool) (c : Char) : Bool := isWord c || c = '.' || c = '%' || c = '+' || c = '-'

/-- A letter at which no match of a pattern begins. -/
def Inert (isWord : Char → Bool) (c : Char) : Prop := isKeyChar c = false ∧ isNameChar isWord c = false

theorem IsWordClass.nameChar {isWord : Char → Bool} (h : IsWordClass isWord) {c : Char} (hc : c.toNat < 128) :
    isNameChar isWord c = isNameChar asciiWord c := by
  unfold isNameChar
  rw [h c hc]

theorem IsWordClass.inert {isWord : Char → Bool} (h : IsWordClass isWord) {w : Text}
    (hw : w.all (fun c => c.toNat < 128 && !isKeyChar c && !isNameChar asciiWord c) = true) :
    ∀ c ∈ w, Inert isWord c := by
  intro c hc
  have hall := List.all_eq_true.mp hw c hc
  simp only [Bool.and_eq_true, decide_eq_true_eq, Bool.not_eq_true'] at hall
  exact ⟨hall.1.2, (h.nameChar hall.1.1).trans hall.2⟩

/-! ### What the patterns pass -/

theorem urlRule_keeps : urlRule.Keeps := by
  rintro text ⟨kept, middle⟩ h
  obtain ⟨scheme, user, -, -, -, rfl, -⟩ := mem_urlKept.mp h
  simp

theorem pairRule_keeps : pairRule.Keeps := by
  intro text r h
  obtain ⟨s, -, t, ht, rfl⟩ := mem_seq.mp h
  obtain ⟨blanks, _, _, -, -, ht, htaken⟩ := mem_seq_many.mp ht
  obtain ⟨sep, _, _, -, -, -, rfl⟩ := mem_seq_one.mp ht
  rw [htaken]
  simp

theorem userinfoRule_keeps (isWord : Char → Bool) : (userinfoRule isWord).Keeps := by
  intro text r h
  obtain ⟨s, hs, t, -, rfl⟩ := mem_seq.mp h
  obtain ⟨hne, -⟩ := mem_plus.mp hs
  exact fun hnil => hne (List.append_eq_nil_iff.mp hnil).1

theorem url_inert {c : Char} {rest : Text} (h : isKeyChar c = false) :
    urlRule.replaceAll (c :: rest) = c :: urlRule.replaceAll rest := by
  refine url_replaceAll_none fun s u q rest' hparts => ?_
  obtain ⟨d, cs, rfl, hd, -⟩ := hparts.scheme
  rw [(List.cons.inj hparts.text_eq).1] at h
  simp [isKeyChar, hd] at h

theorem pair_inert {c : Char} {rest : Text} (h : isKeyChar c = false) :
    pairRule.replaceAll (c :: rest) = c :: pairRule.replaceAll rest := by
  refine pair_replaceAll_none fun key blanks sep blanks' value rest' hparts => ?_
  obtain ⟨d, key, rfl⟩ := List.exists_cons_of_ne_nil hparts.key.ne
  rw [(List.cons.inj hparts.text_eq).1, hparts.key.chars d List.mem_cons_self] at h
  cases h

/-- The parts of a match of the third pattern: name and password. -/
theorem userinfo_of_match {isWord : Char → Bool} {before : Option Char} {text kept masked rest : Text}
    (h : (userinfoRule isWord).matchAt before text = some (kept, masked, rest)) :
    ∃ name password : Text, name ≠ [] ∧ (∀ c ∈ name, isNameChar isWord c = true) ∧ password ≠ [] ∧
      (∀ c ∈ password, isPasswordChar c = true) ∧ text = name ++ ':' :: (password ++ '@' :: rest) := by
  obtain ⟨middle, hkept, hmasked⟩ := Rule.mem_of_matchAt h
  obtain ⟨name, _, _, hne, hname, rfl, hcolon, -⟩ := mem_seq_plus.mp hkept
  obtain ⟨-, rfl⟩ := mem_char.mp hcolon
  obtain ⟨password, _, _, hpne, hpassword, hmiddle, hat, -⟩ := mem_seq_plus.mp hmasked
  obtain ⟨-, rfl⟩ := mem_char.mp hat
  dsimp only at hmiddle
  subst hmiddle
  exact ⟨name, password, hne, hname, hpne, hpassword, rfl⟩

section Passed

variable {isWord : Char → Bool} (hword : IsWordClass isWord)

include hword

/-- A run of name letters is passed where no password follows it. -/
theorem userinfo_passed {run rest : Text} {e : Char} (hrun : ∀ c ∈ run, isNameChar isWord c = true)
    (he : isNameChar isWord e = false) (hstop : e = ':' → run = [] ∨ ∀ c ∈ rest.head?, isPasswordChar c = false) :
    (userinfoRule isWord).replaceAll (run ++ e :: rest) = run ++ e :: (userinfoRule isWord).replaceAll rest := by
  have hcolon : isNameChar isWord ':' = false := hword.nameChar (by decide)
  have hnone : ∀ u c z, run ++ [e] = u ++ c :: z → ∀ before,
      (userinfoRule isWord).matchAt before (c :: z ++ rest) = none := by
    intro u c z hsplit before
    cases hmatch : (userinfoRule isWord).matchAt before (c :: z ++ rest) with
    | none => rfl
    | some m =>
      obtain ⟨kept, masked, rest'⟩ := m
      obtain ⟨name, password, hne, hname, hpne, hpassword, htext⟩ := userinfo_of_match hmatch
      obtain ⟨run', hrun', hz⟩ : ∃ run' : Text, run = u ++ run' ∧ c :: z = run' ++ [e] := by
        rcases List.append_eq_append_iff.mp hsplit with ⟨more, rfl, hlast⟩ | ⟨more, hrun', hz⟩
        · cases more with
          | nil => exact ⟨[], by simp, hlast.symm⟩
          | cons d more => cases more <;> cases hlast
        · exact ⟨more, hrun', hz⟩
      have hchars : ∀ d ∈ run', isNameChar isWord d = true := by
        intro d hd
        exact hrun d (by rw [hrun']; exact List.mem_append_right u hd)
      rw [hz, List.append_assoc] at htext
      obtain ⟨rfl, rfl, hbehind⟩ := run_unique hchars hname he hcolon htext
      obtain ⟨d, password, rfl⟩ := List.exists_cons_of_ne_nil hpne
      rcases hstop rfl with hnil | hhead
      · rw [hnil] at hrun'
        exact absurd (List.append_eq_nil_iff.mp hrun'.symm).2 hne
      · have hrest : rest = d :: password ++ '@' :: rest' := hbehind
        have hd := hhead d (by rw [hrest]; rfl)
        rw [hpassword d List.mem_cons_self] at hd
        cases hd
  have hlast : (userinfoRule isWord).starts (run ++ [e]).getLast? rest = (userinfoRule isWord).starts none rest := by
    have hw : isWord e = false := by
      unfold isNameChar at he
      simp only [Bool.or_eq_false_iff] at he
      exact he.1.1.1.1
    rw [List.getLast?_concat]
    simp only [userinfoRule, Option.any_some, Option.any_none, hw]
  have hpassed := (userinfoRule_keeps isWord).replaceAll_passed hnone hlast
  simpa using hpassed

end Passed

/-- The second and the third pattern. -/
def redactPairs (isWord : Char → Bool) (text : Text) : Text :=
  (userinfoRule isWord).replaceAll (pairRule.replaceAll text)

theorem head?_redactPairs (isWord : Char → Bool) (text : Text) : (redactPairs isWord text).head? = text.head? := by
  rw [redactPairs, (userinfoRule_keeps isWord).head?_replaceAll, pairRule_keeps.head?_replaceAll]

theorem head?_redactSensitive (isWord : Char → Bool) (text : Text) :
    (redactSensitive isWord text).head? = text.head? := by
  rw [redactSensitive, (userinfoRule_keeps isWord).head?_replaceAll, pairRule_keeps.head?_replaceAll,
    urlRule_keeps.head?_replaceAll]

section Front

variable {isWord : Char → Bool} (hword : IsWordClass isWord)

include hword

theorem userinfo_inert {w rest : Text} (hw : ∀ c ∈ w, Inert isWord c) :
    (userinfoRule isWord).replaceAll (w ++ rest) = w ++ (userinfoRule isWord).replaceAll rest := by
  induction w with
  | nil => rfl
  | cons c w ih =>
    have hstep : (userinfoRule isWord).replaceAll ([] ++ c :: (w ++ rest)) =
        [] ++ c :: (userinfoRule isWord).replaceAll (w ++ rest) :=
      userinfo_passed hword (fun d hd => absurd hd List.not_mem_nil) (hw c List.mem_cons_self).2 fun _ => .inl rfl
    rw [List.cons_append, List.cons_append, ← ih fun d hd => hw d (List.mem_cons_of_mem c hd)]
    exact hstep

theorem redactPairs_inert {w rest : Text} (hw : ∀ c ∈ w, Inert isWord c) :
    redactPairs isWord (w ++ rest) = w ++ redactPairs isWord rest := by
  have hpair : pairRule.replaceAll (w ++ rest) = w ++ pairRule.replaceAll rest := by
    induction w with
    | nil => rfl
    | cons c w ih =>
      rw [List.cons_append, pair_inert (hw c List.mem_cons_self).1, ih fun d hd => hw d (List.mem_cons_of_mem c hd),
        List.cons_append]
  rw [redactPairs, hpair, userinfo_inert hword hw, redactPairs]

/-- A text whose redaction is inert was not changed by it. -/
theorem eq_of_redactSensitive {text w : Text} (hw : ∀ c ∈ w, Inert isWord c) (h : redactSensitive isWord text = w) :
    text = w := by
  induction w generalizing text with
  | nil =>
    have hhead := head?_redactSensitive isWord text
    rw [h] at hhead
    exact List.head?_eq_none_iff.mp hhead.symm
  | cons c w ih =>
    have hhead := head?_redactSensitive isWord text
    rw [h] at hhead
    obtain ⟨rest, rfl⟩ := List.head?_eq_some_iff.mp hhead.symm
    have hc := hw c List.mem_cons_self
    have hstep : redactSensitive isWord (c :: rest) = c :: redactSensitive isWord rest := by
      have hpairs : redactPairs isWord ([c] ++ urlRule.replaceAll rest) =
          [c] ++ redactPairs isWord (urlRule.replaceAll rest) :=
        redactPairs_inert hword (List.forall_mem_singleton.mpr hc)
      rw [redactSensitive, url_inert hc.1]
      exact hpairs
    rw [hstep] at h
    rw [ih (fun d hd => hw d (List.mem_cons_of_mem c hd)) (List.cons.inj h).2]

/-- `x:` before slashes. -/
theorem redactPairs_scheme (rest : Text) :
    redactPairs isWord ('x' :: ':' :: '/' :: '/' :: rest) = 'x' :: ':' :: '/' :: '/' :: redactPairs isWord rest := by
  have hx : pairRule.replaceAll ('x' :: ':' :: '/' :: '/' :: rest) =
      'x' :: pairRule.replaceAll (':' :: '/' :: '/' :: rest) := by
    refine pair_replaceAll_none fun key blanks sep blanks' value rest' hparts => ?_
    have hrun : ∀ c ∈ ['x'], (!isAssign c) = true := List.all_eq_true.mp (by decide)
    obtain ⟨hhead, -⟩ := run_unique hrun hparts.not_assign (show (!isAssign ':') = false by decide)
      (show (!isAssign sep) = false by rw [hparts.sep]; rfl) hparts.text_eq
    obtain ⟨c, key, rfl⟩ := List.exists_cons_of_ne_nil hparts.key.ne
    obtain ⟨rfl, htail⟩ := List.cons.inj hhead
    obtain ⟨rfl, -⟩ := List.append_eq_nil_iff.mp htail.symm
    have hkey := hparts.key
    revert hkey
    unfold IsKeyword
    decide
  have hname : ∀ c ∈ ['x'], isNameChar isWord c = true :=
    List.forall_mem_singleton.mpr ((hword.nameChar (by decide)).trans (by decide))
  have hslashes : ∀ c ∈ ['/', '/'], Inert isWord c := hword.inert (by decide)
  have huser : (userinfoRule isWord).replaceAll (['x'] ++ ':' :: '/' :: '/' :: pairRule.replaceAll rest) =
      ['x'] ++ ':' :: (userinfoRule isWord).replaceAll ('/' :: '/' :: pairRule.replaceAll rest) :=
    userinfo_passed hword hname ((hword.nameChar (by decide)).trans (by decide)) fun _ => .inr fun c hc => by
      cases hc
      decide
  rw [redactPairs, hx, pair_inert (by decide), pair_inert (by decide), pair_inert (by decide)]
  exact huser.trans (congrArg (fun t => 'x' :: ':' :: t) (userinfo_inert hword hslashes))

/-- A match at `x://` masks the password. -/
theorem redact_url {user password rest : Text} (hne : user ≠ []) (huser : ∀ c ∈ user, isUserChar c = true)
    (hpne : password ≠ []) (hpassword : ∀ c ∈ password, isPasswordChar c = true) :
    redactSensitive isWord (['x'] ++ authority user password rest) = 'x' :: ':' :: '/' :: '/' ::
      redactPairs isWord (user ++ ':' :: ('*' :: '*' :: '*' :: '@' :: urlRule.replaceAll rest)) := by
  have hparts : UrlParts (['x'] ++ authority user password rest) ['x'] user password rest :=
    ⟨rfl, ⟨'x', [], rfl, by decide, fun d hd => absurd hd List.not_mem_nil⟩, hne, huser, hpne, hpassword⟩
  have hshape : ['x'] ++ ':' :: '/' :: '/' :: (user ++ [':']) ++ ['*', '*', '*', '@'] ++ urlRule.replaceAll rest =
      'x' :: ':' :: '/' :: '/' :: (user ++ ':' :: ('*' :: '*' :: '*' :: '@' :: urlRule.replaceAll rest)) := by
    simp
  rw [redactSensitive, url_replaceAll hparts, hshape]
  exact redactPairs_scheme hword _

/-- Where no match begins at `x://`, it stays before the redaction of the rest. -/
theorem redact_no_url {rest : Text} (h : ∀ user password after, user ≠ [] → (∀ c ∈ user, isUserChar c = true) →
    password ≠ [] → (∀ c ∈ password, isPasswordChar c = true) → rest ≠ user ++ ':' :: (password ++ '@' :: after)) :
    redactSensitive isWord ('x' :: ':' :: '/' :: '/' :: rest) =
      'x' :: ':' :: '/' :: '/' :: redactSensitive isWord rest := by
  have hnone : ∀ s u q after, ¬ UrlParts ('x' :: ':' :: '/' :: '/' :: rest) s u q after := by
    intro s u q after hparts
    have hx : ∀ c ∈ ['x'], isSchemeChar c = true := List.all_eq_true.mp (by decide)
    obtain ⟨-, -, hbehind⟩ := run_unique hx (show IsScheme s from hparts.scheme).chars
      (show isSchemeChar ':' = false by decide) (show isSchemeChar ':' = false by decide) hparts.text_eq
    exact h u q after hparts.user_ne hparts.user hparts.password_ne hparts.password
      (List.cons.inj (List.cons.inj hbehind).2).2
  rw [redactSensitive, url_replaceAll_none hnone, url_inert (by decide), url_inert (by decide), url_inert (by decide)]
  exact redactPairs_scheme hword _

end Front

/-! ### A password that shows -/

/-- A password that the first pattern runs over. -/
structure HiddenPassword (password : Text) : Prop where
  ne : password ≠ []
  chars : ∀ c ∈ password, isPasswordChar c = true

section Shows

variable {isWord : Char → Bool} (hword : IsWordClass isWord)

include hword

theorem redact_at {password rest : Text} (h : HiddenPassword password) :
    redactSensitive isWord (['x'] ++ authority ['~'] password rest) =
      ['x', ':', '/', '/', '~', ':', '*', '*', '*', '@'] ++ redactPairs isWord (urlRule.replaceAll rest) := by
  have hinert : ∀ c ∈ ['~', ':', '*', '*', '*', '@'], Inert isWord c := hword.inert (by decide)
  rw [redact_url hword (List.cons_ne_nil _ _) (List.all_eq_true.mp (by decide)) h.ne h.chars]
  exact congrArg (fun t => 'x' :: ':' :: '/' :: '/' :: t) (redactPairs_inert hword hinert)

/-- A password of other letters shows in a message. -/
theorem password_shows {password : Text} (h : ¬ HiddenPassword password) :
    redactSensitive isWord (['x'] ++ authority ['~'] password []) ≠
      redactSensitive isWord (['x'] ++ authority ['~'] ['a'] []) := by
  have hnil : redactPairs isWord (urlRule.replaceAll []) = [] := rfl
  have hplain : HiddenPassword ['a'] := ⟨List.cons_ne_nil _ _, List.all_eq_true.mp (by decide)⟩
  rw [redact_at hword hplain, hnil, List.append_nil]
  intro heq
  by_cases hmatch : ∃ q r : Text, HiddenPassword q ∧ password = q ++ '@' :: r
  · -- the match ends at a letter of the password
    obtain ⟨q, r, hq, rfl⟩ := hmatch
    have hsplit : authority ['~'] (q ++ '@' :: r) [] = authority ['~'] q (r ++ ['@']) := by
      simp only [authority, List.append_assoc, List.cons_append]
    rw [hsplit, redact_at hword hq] at heq
    have hempty := List.append_right_eq_self.mp heq
    have hhead := head?_redactPairs isWord (urlRule.replaceAll (r ++ ['@']))
    rw [hempty, urlRule_keeps.head?_replaceAll] at hhead
    cases r <;> cases hhead
  · -- no match, and the text behind the user is its own redaction
    have hopen : redactSensitive isWord ('x' :: ':' :: '/' :: '/' :: ('~' :: ':' :: (password ++ ['@']))) =
        'x' :: ':' :: '/' :: '/' :: redactSensitive isWord ('~' :: ':' :: (password ++ ['@'])) := by
      refine redact_no_url hword fun user q after hne huser hqne hq htext => ?_
      have hrun : ∀ c ∈ ['~'], isUserChar c = true := List.all_eq_true.mp (by decide)
      obtain ⟨-, -, hbehind⟩ := run_unique hrun huser (show isUserChar ':' = false by decide)
        (show isUserChar ':' = false by decide) htext
      rcases cut hbehind.symm with ⟨more, hpassword, -⟩ | ⟨more, rfl, hlast⟩
      · exact hmatch ⟨q, more, ⟨hqne, hq⟩, hpassword⟩
      · cases more with
        | nil =>
          rw [List.append_nil] at hqne hq
          exact h ⟨hqne, hq⟩
        | cons d more => cases more <;> cases hlast
    have htext : ['x'] ++ authority ['~'] password [] =
        'x' :: ':' :: '/' :: '/' :: ('~' :: ':' :: (password ++ ['@'])) := rfl
    rw [htext, hopen] at heq
    have hbehind : redactSensitive isWord ('~' :: ':' :: (password ++ ['@'])) = ['~', ':', '*', '*', '*', '@'] := by
      simpa using heq
    have hsame := eq_of_redactSensitive hword (hword.inert (by decide)) hbehind
    have hstars : password ++ ['@'] = ['*', '*', '*'] ++ ['@'] := by simpa using hsame
    rw [List.append_cancel_right hstars] at h
    exact h ⟨List.cons_ne_nil _ _, List.all_eq_true.mp (by decide)⟩

end Shows

/-! ### A value that shows -/

def passwordKey : Text := ['p', 'a', 's', 's', 'w', 'o', 'r', 'd']

theorem passwordKey_keyword : IsKeyword passwordKey := by
  unfold IsKeyword
  decide

theorem plain_isValue : IsValue ['a'] := ⟨List.cons_ne_nil _ _, List.all_eq_true.mp (by decide)⟩

/-- Without a slash the first pattern has no match. -/
theorem url_no_slash {text : Text} (h : '/' ∉ text) : urlRule.replaceAll text = text := by
  have hpassed : urlRule.replaceAll (text ++ []) = text ++ urlRule.replaceAll [] := by
    refine url_passed fun u c z hw s user q rest hparts => h ?_
    rw [hw, ← List.append_nil (c :: z), hparts.text_eq]
    simp
  rw [List.append_nil] at hpassed
  rw [hpassed]
  exact List.append_nil text

/-- Without a value behind the separator the second pattern has no match. -/
theorem pair_stuck {rest : Text} (h : ∀ c ∈ rest.head?, isValueChar c = false ∧ isSpace c = false) :
    pairRule.replaceAll (passwordKey ++ '=' :: rest) = passwordKey ++ '=' :: pairRule.replaceAll rest := by
  have hkey : ∀ c ∈ passwordKey, (!isAssign c) = true := List.all_eq_true.mp (by decide)
  have hnone : ∀ w : Text, (∀ c ∈ w, (!isAssign c) = true) →
      pairRule.replaceAll (w ++ '=' :: rest) = w ++ '=' :: pairRule.replaceAll rest := by
    intro w hw
    induction w with
    | nil => exact pair_inert (by decide)
    | cons c w ih =>
      have htail := ih fun d hd => hw d (List.mem_cons_of_mem c hd)
      rw [List.cons_append, pair_replaceAll_none, htail, List.cons_append]
      intro key blanks sep blanks' value after hparts
      obtain ⟨-, -, hbehind⟩ := run_unique hw hparts.not_assign (show (!isAssign '=') = false by decide)
        (show (!isAssign sep) = false by rw [hparts.sep]; rfl) hparts.text_eq
      cases blanks' with
      | nil =>
        obtain ⟨d, value, rfl⟩ := List.exists_cons_of_ne_nil hparts.value_ne
        have hd := h d (by rw [hbehind]; rfl)
        rw [hparts.value d List.mem_cons_self] at hd
        cases hd.1
      | cons d blanks' =>
        have hd := h d (by rw [hbehind]; rfl)
        rw [hparts.blanks' d List.mem_cons_self] at hd
        cases hd.2
  exact hnone passwordKey hkey

section Shows

variable {isWord : Char → Bool} (hword : IsWordClass isWord)

include hword

theorem userinfo_key (rest : Text) : (userinfoRule isWord).replaceAll (passwordKey ++ '=' :: rest) =
    passwordKey ++ '=' :: (userinfoRule isWord).replaceAll rest := by
  have hkey : ∀ c ∈ passwordKey, (c.toNat < 128 && isNameChar asciiWord c) = true := List.all_eq_true.mp (by decide)
  refine userinfo_passed hword (fun c hc => ?_) ((hword.nameChar (by decide)).trans (by decide)) fun h => ?_
  · obtain ⟨hascii, hname⟩ := Bool.and_eq_true_iff.mp (hkey c hc)
    exact (hword.nameChar (of_decide_eq_true hascii)).trans hname
  · cases h

theorem redactPairs_value {value rest : Text} (hvalue : IsValue value) (hrest : EndsValue rest) :
    redactPairs isWord (passwordKey ++ '=' :: (value ++ rest)) =
      passwordKey ++ '=' :: '*' :: '*' :: '*' :: redactPairs isWord rest := by
  have hparts : PairParts (passwordKey ++ '=' :: (value ++ rest)) passwordKey [] '=' [] value rest := by
    refine ⟨by simp, passwordKey_keyword, ?_, by decide, ?_, hvalue.ne, hvalue.chars, hrest⟩
    · exact fun c hc => absurd hc List.not_mem_nil
    · exact fun c hc => absurd hc List.not_mem_nil
  have hshape : (passwordKey ++ []) ++ '=' :: [] ++ ['*', '*', '*'] ++ pairRule.replaceAll rest =
      passwordKey ++ '=' :: (['*', '*', '*'] ++ pairRule.replaceAll rest) := by simp
  have hstars : ∀ c ∈ ['*', '*', '*'], Inert isWord c := hword.inert (by decide)
  rw [redactPairs, pair_replaceAll hparts, hshape, userinfo_key hword, userinfo_inert hword hstars]
  rfl

theorem redact_value {value rest : Text} (hvalue : IsValue value) (hrest : EndsValue rest)
    (hslash : '/' ∉ value ++ rest) : redactSensitive isWord (assignment passwordKey '=' value rest) =
      passwordKey ++ '=' :: '*' :: '*' :: '*' :: redactPairs isWord rest := by
  have hno : '/' ∉ assignment passwordKey '=' value rest := by
    intro hmem
    rcases List.mem_append.mp hmem with hmem | hmem
    · exact absurd hmem (by decide)
    · rcases List.mem_cons.mp hmem with heq | hmem
      · exact absurd heq (by decide)
      · exact hslash hmem
  rw [redactSensitive, url_no_slash hno]
  exact redactPairs_value hword hvalue hrest

theorem redactPairs_end {w : Text} (hw : ∀ c ∈ w, Inert isWord c) : redactPairs isWord w = w := by
  have h : redactPairs isWord (w ++ []) = w ++ redactPairs isWord [] := redactPairs_inert hword hw
  rw [List.append_nil] at h
  rw [h]
  exact List.append_nil w

/-- A value that is redacted in all messages as `a` is. -/
def LikePlain (isWord : Char → Bool) (value : Text) : Prop := ∀ before post : Text, EndsValue post →
  redactSensitive isWord (before ++ assignment passwordKey '=' value post) =
    redactSensitive isWord (before ++ assignment passwordKey '=' ['a'] post)

/-- Behind `x://` the value goes through the user of a match, or ends it at a colon. -/
theorem LikePlain.user {value : Text} (h : LikePlain isWord value) : (∀ c ∈ value, isUserChar c = true) ∨
    ∃ user rest password after : Text, value = user ++ ':' :: rest ∧ (∀ c ∈ user, isUserChar c = true) ∧
      (∀ c ∈ password, isPasswordChar c = true) ∧ rest ++ [',', ':', '~', '@'] = password ++ '@' :: after := by
  have hpost : EndsValue [',', ':', '~', '@'] := fun c hc => by cases hc; decide
  have hinert : ∀ c ∈ [',', ':', '~', '@'], Inert isWord c := hword.inert (by decide)
  have hinert' : ∀ c ∈ [',', ':', '*', '*', '*', '@'], Inert isWord c := hword.inert (by decide)
  have hplain : redactSensitive isWord (assignment passwordKey '=' ['a'] [',', ':', '~', '@']) =
      passwordKey ++ ['=', '*', '*', '*', ',', ':', '~', '@'] := by
    rw [redact_value hword plain_isValue hpost (by decide), redactPairs_end hword hinert]
  have hurl : redactSensitive isWord (['x', ':', '/', '/'] ++ assignment passwordKey '=' ['a'] [',', ':', '~', '@']) =
      'x' :: ':' :: '/' :: '/' :: (passwordKey ++ ['=', '*', '*', '*', ',', ':', '*', '*', '*', '@']) := by
    have hmasked : EndsValue [',', ':', '*', '*', '*', '@'] := fun c hc => by cases hc; decide
    have huser : passwordKey ++ ['=', 'a', ','] ≠ [] ∧ (∀ c ∈ passwordKey ++ ['=', 'a', ','], isUserChar c = true) :=
      ⟨List.cons_ne_nil _ _, List.all_eq_true.mp (by decide)⟩
    have hpassword : ['~'] ≠ [] ∧ ∀ c ∈ ['~'], isPasswordChar c = true :=
      ⟨List.cons_ne_nil _ _, List.all_eq_true.mp (by decide)⟩
    refine (redact_url hword huser.1 huser.2 hpassword.1 hpassword.2).trans ?_
    rw [url_no_slash List.not_mem_nil]
    refine congrArg (fun t => 'x' :: ':' :: '/' :: '/' :: t) ?_
    refine (redactPairs_value hword plain_isValue hmasked).trans ?_
    rw [redactPairs_end hword hinert']
  by_contra hnot
  have hopen : redactSensitive isWord ('x' :: ':' :: '/' :: '/' :: assignment passwordKey '=' value _) =
      'x' :: ':' :: '/' :: '/' :: redactSensitive isWord (assignment passwordKey '=' value [',', ':', '~', '@']) :=
    redact_no_url hword ?_
  · have h₁ := h ['x', ':', '/', '/'] _ hpost
    have h₂ := h [] _ hpost
    rw [List.nil_append, List.nil_append, hplain] at h₂
    rw [hurl] at h₁
    have heq := h₁.symm.trans hopen
    rw [h₂] at heq
    revert heq
    decide
  · intro user password after hne huser hpne hpassword htext
    refine hnot ?_
    have hsplit : user ++ ':' :: (password ++ '@' :: after) = (passwordKey ++ '=' :: value) ++ [',', ':', '~', '@'] := by
      rw [← htext, assignment, List.append_assoc, List.cons_append]
    rcases cut hsplit with ⟨more, hfront, hbehind⟩ | ⟨more, rfl, -⟩
    · rcases cut hfront.symm with ⟨m, hm, -⟩ | ⟨m, rfl, hm⟩
      · exact absurd (show ':' ∈ passwordKey by rw [hm]; simp) (by decide)
      · cases m with
        | nil => exact absurd (List.cons.inj hm).1 (by decide)
        | cons e m =>
          refine .inr ⟨m, more, password, after, (List.cons.inj hm).2, fun c hc => huser c ?_, hpassword, hbehind.symm⟩
          simp [hc]
    · exact .inl fun c hc => huser c (by simp [hc])

/-- Behind a user the value ends no password. -/
theorem LikePlain.not_at {value : Text} (h : LikePlain isWord value) {password rest : Text}
    (hpassword : ∀ c ∈ password, isPasswordChar c = true) : value ≠ password ++ '@' :: rest := by
  rintro rfl
  have hkey : ∀ c ∈ passwordKey ++ ['='], isPasswordChar c = true := List.all_eq_true.mp (by decide)
  have hhidden : HiddenPassword (passwordKey ++ '=' :: password) := by
    refine ⟨List.cons_ne_nil _ _, fun c hc => ?_⟩
    rcases List.mem_append.mp (show c ∈ (passwordKey ++ ['=']) ++ password from hc) with hc | hc
    · exact hkey c hc
    · exact hpassword c hc
  have hinert : ∀ c ∈ ['~', ':'], Inert isWord c := hword.inert (by decide)
  have hplain : redactSensitive isWord (['x', ':', '/', '/', '~', ':'] ++ assignment passwordKey '=' ['a'] []) =
      'x' :: ':' :: '/' :: '/' :: '~' :: ':' :: (passwordKey ++ ['=', '*', '*', '*']) := by
    have hopen : redactSensitive isWord ('x' :: ':' :: '/' :: '/' :: (['~', ':'] ++ assignment passwordKey '=' ['a'] [])) =
        'x' :: ':' :: '/' :: '/' :: redactSensitive isWord (['~', ':'] ++ assignment passwordKey '=' ['a'] []) :=
      redact_no_url hword ?_
    · refine hopen.trans (congrArg (fun t => 'x' :: ':' :: '/' :: '/' :: t) ?_)
      rw [redactSensitive, url_no_slash (by decide)]
      refine (redactPairs_inert hword hinert).trans (congrArg (['~', ':'] ++ ·) ?_)
      exact (redactPairs_value hword plain_isValue fun c hc => by cases hc).trans rfl
    · intro user q after hne huser hqne hq htext
      have hmem : '@' ∈ ['~', ':'] ++ assignment passwordKey '=' ['a'] [] := by
        rw [htext]
        simp
      exact absurd hmem (by decide)
  have heq := h ['x', ':', '/', '/', '~', ':'] [] fun c hc => by cases hc
  have htext : ['x', ':', '/', '/', '~', ':'] ++ assignment passwordKey '=' (password ++ '@' :: rest) [] =
      ['x'] ++ authority ['~'] (passwordKey ++ '=' :: password) rest := by
    simp [assignment, authority]
  rw [hplain, htext, redact_at hword hhidden] at heq
  simp [passwordKey] at heq

theorem LikePlain.password {value : Text} (h : LikePlain isWord value) : ∀ c ∈ value, isPasswordChar c = true := by
  rcases all_or_first isPasswordChar value with hall | ⟨run, d, more, rfl, hrun, hd⟩
  · exact hall
  · exfalso
    have hat : d ≠ '@' := by
      rintro rfl
      exact h.not_at hword hrun rfl
    have hclass : isUserChar d = false ∧ d ≠ ':' := by
      unfold isPasswordChar at hd
      simp only [Bool.not_eq_false', Bool.or_eq_true, decide_eq_true_eq] at hd
      rcases hd with (hd | rfl) | hspace
      · exact absurd hd hat
      · decide
      · refine ⟨by simp [isUserChar, hspace], ?_⟩
        rintro rfl
        exact absurd hspace (by decide)
    rcases h.user hword with huser | ⟨user, rest, password, after, hsplit, huser, hpassword, hbehind⟩
    · rw [huser d (by simp)] at hclass
      exact absurd hclass.1 (by decide)
    · rcases cut hsplit with ⟨m, rfl, -⟩ | ⟨m, rfl, hm⟩
      · rw [huser d (by simp)] at hclass
        exact absurd hclass.1 (by decide)
      · cases m with
        | nil => exact hclass.2 (List.cons.inj hm).1.symm
        | cons e m =>
          obtain ⟨rfl, rfl⟩ := List.cons.inj hm
          have hm' : ∀ c ∈ m, isPasswordChar c = true := fun c hc => hrun c (by simp [hc])
          have htext : m ++ d :: (more ++ [',', ':', '~', '@']) = password ++ '@' :: after :=
            (List.append_assoc m (d :: more) _).symm.trans hbehind
          obtain ⟨-, rfl, -⟩ := run_unique hm' hpassword hd (show isPasswordChar '@' = false by decide) htext
          exact hat rfl

theorem LikePlain.isValue {value : Text} (h : LikePlain isWord value) : IsValue value := by
  have hslash : '/' ∉ value := fun hmem => absurd (h.password hword _ hmem) (by decide)
  have hnil : EndsValue [] := fun c hc => by cases hc
  have hempty : redactPairs isWord [] = [] := rfl
  have hplain : redactSensitive isWord (assignment passwordKey '=' value []) =
      passwordKey ++ ['=', '*', '*', '*'] := by
    have heq := h [] [] hnil
    rw [List.nil_append, List.nil_append, redact_value hword plain_isValue hnil (by decide), hempty] at heq
    exact heq
  have hstuck : ∀ text : Text, '/' ∉ text → (∀ c ∈ text.head?, isValueChar c = false ∧ isSpace c = false) →
      ∃ out, redactSensitive isWord (assignment passwordKey '=' text []) = passwordKey ++ '=' :: out ∧
        out.head? = text.head? := by
    intro text hno hhead
    have hslash' : '/' ∉ passwordKey ++ '=' :: text := by
      intro hmem
      rcases List.mem_append.mp hmem with hmem | hmem
      · exact absurd hmem (by decide)
      · rcases List.mem_cons.mp hmem with heq | hmem
        · exact absurd heq (by decide)
        · exact hno hmem
    refine ⟨redactPairs isWord text, ?_, head?_redactPairs isWord text⟩
    rw [assignment, List.append_nil, redactSensitive, url_no_slash hslash', pair_stuck hhead, userinfo_key hword,
      redactPairs]
  rcases all_or_first isValueChar value with hall | ⟨run, d, more, rfl, hrun, hd⟩
  · refine ⟨?_, hall⟩
    rintro rfl
    obtain ⟨out, hout, hhead⟩ := hstuck [] hslash fun c hc => by cases hc
    rw [hplain] at hout
    rw [← (List.cons.inj (List.append_cancel_left hout)).2] at hhead
    cases hhead
  · exfalso
    have hspace : isSpace d = false := by
      have hpassword := h.password hword d (by simp)
      unfold isPasswordChar at hpassword
      simp only [Bool.not_eq_true', Bool.or_eq_false_iff] at hpassword
      exact hpassword.2
    cases run with
    | nil =>
      obtain ⟨out, hout, hhead⟩ := hstuck (d :: more) hslash fun c hc => by
        cases hc
        exact ⟨hd, hspace⟩
      rw [List.nil_append] at hplain
      rw [hplain] at hout
      rw [← (List.cons.inj (List.append_cancel_left hout)).2] at hhead
      cases hhead
      exact absurd hd (by decide)
    | cons c run =>
      have hvalue : IsValue (c :: run) := ⟨List.cons_ne_nil _ _, hrun⟩
      have hends : EndsValue (d :: more) := fun e he => by
        cases he
        exact hd
      have htext : assignment passwordKey '=' (c :: run ++ d :: more) [] =
          assignment passwordKey '=' (c :: run) (d :: more) := by
        rw [assignment, assignment, List.append_nil]
      rw [htext, redact_value hword hvalue hends hslash] at hplain
      have hout : redactPairs isWord (d :: more) = [] := by simpa using hplain
      have hhead := head?_redactPairs isWord (d :: more)
      rw [hout] at hhead
      cases hhead

/-- A value of other letters is redacted in some message as no plain value is. -/
theorem LikePlain.clean {value : Text} (h : LikePlain isWord value) : CleanValue value := by
  have hpassword := h.password hword
  have hvalue := h.isValue hword
  rcases h.user hword with huser | ⟨user, rest, -, -, rfl, huser, -, -⟩
  · exact ⟨hvalue.ne, huser, hpassword, hvalue.chars⟩
  · exfalso
    have hpost : EndsValue [',', '@'] := fun c hc => by cases hc; decide
    have hinert : ∀ c ∈ [',', '@'], Inert isWord c := hword.inert (by decide)
    have hplain : redactSensitive isWord (['x', ':', '/', '/'] ++ assignment passwordKey '=' ['a'] [',', '@']) =
        'x' :: ':' :: '/' :: '/' :: (passwordKey ++ ['=', '*', '*', '*', ',', '@']) := by
      have hopen : redactSensitive isWord ('x' :: ':' :: '/' :: '/' :: assignment passwordKey '=' ['a'] [',', '@']) =
          'x' :: ':' :: '/' :: '/' :: redactSensitive isWord (assignment passwordKey '=' ['a'] [',', '@']) := by
        refine redact_no_url hword fun user q after hne huser hqne hq htext => ?_
        have hmem : ':' ∈ assignment passwordKey '=' ['a'] [',', '@'] := by
          rw [htext]
          simp
        exact absurd hmem (by decide)
      refine hopen.trans (congrArg (fun t => 'x' :: ':' :: '/' :: '/' :: t) ?_)
      rw [redact_value hword plain_isValue hpost (by decide), redactPairs_end hword hinert]
    have hmasked : redactSensitive isWord (['x'] ++ authority (passwordKey ++ '=' :: user) (rest ++ [',']) []) =
        'x' :: ':' :: '/' :: '/' :: (passwordKey ++ ['=', '*', '*', '*']) := by
      have hkey : ∀ c ∈ passwordKey ++ ['='], isUserChar c = true := List.all_eq_true.mp (by decide)
      refine (redact_url hword (List.cons_ne_nil _ _) (fun c hc => ?_) (by simp) fun c hc => ?_).trans ?_
      · rcases List.mem_append.mp (show c ∈ (passwordKey ++ ['=']) ++ user from hc) with hc | hc
        · exact hkey c hc
        · exact huser c hc
      · rcases List.mem_append.mp hc with hc | hc
        · exact hpassword c (by simp [hc])
        · rw [List.mem_singleton.mp hc]
          decide
      · refine congrArg (fun t => 'x' :: ':' :: '/' :: '/' :: t) ?_
        have htaken : IsValue (user ++ [':', '*', '*', '*', '@']) := by
          have hmask : ∀ c ∈ [':', '*', '*', '*', '@'], isValueChar c = true := List.all_eq_true.mp (by decide)
          refine ⟨by simp, fun c hc => ?_⟩
          rcases List.mem_append.mp hc with hc | hc
          · exact hvalue.chars c (by simp [hc])
          · exact hmask c hc
        have hnil : EndsValue [] := fun c hc => by cases hc
        have hpairs := redactPairs_value hword htaken hnil
        rw [List.append_nil] at hpairs
        rw [url_no_slash List.not_mem_nil]
        exact (congrArg (redactPairs isWord) (List.append_assoc passwordKey ('=' :: user) _)).trans hpairs
    have htext : ['x', ':', '/', '/'] ++ assignment passwordKey '=' (user ++ ':' :: rest) [',', '@'] =
        ['x'] ++ authority (passwordKey ++ '=' :: user) (rest ++ [',']) [] := by
      simp [assignment, authority]
    have heq := h ['x', ':', '/', '/'] _ hpost
    rw [hplain, htext, hmasked] at heq
    revert heq
    decide

end Shows

end Jaiba.Connections.Redact
