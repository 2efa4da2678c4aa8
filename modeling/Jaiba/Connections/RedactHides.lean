import Jaiba.Connections.RedactPairs

/-!
# Messages that differ in a password

The second pattern masks the value of every pair whatever it is; so two
messages that differ in passwords are redacted to one text.
-/

namespace Jaiba.Connections.Redact
open Jaiba.Lib Regex

/-! ### The second pattern -/

theorem letters_within {ds : Text} (h : ds.all Char.isLower = true) :
    (Regex.word (ds.map fun d c => decide (fold c = d))).Within isKeyChar := by
  induction ds with
  | nil => exact trivial
  | cons d ds ih =>
    rw [List.all_cons, Bool.and_eq_true] at h
    refine ⟨fun c hc => ?_, ih h.2⟩
    have hletter : isLetter c = true := by
      rw [isLetter, of_decide_eq_true hc]
      exact h.1
    simp [isKeyChar, hletter]

theorem word_within (w : String) (h : w.toList.all Char.isLower = true) : (word w).Within isKeyChar :=
  letters_within h

theorem keyword_within : keyword.Within isKeyChar := by
  have hmark : (Regex.one fun c : Char => c = '_' || c = '-').Within isKeyChar := by
    intro c hc
    simp only [Bool.or_eq_true, decide_eq_true_eq] at hc
    rcases hc with rfl | rfl <;> decide
  exact ⟨word_within _ (by decide), word_within _ (by decide), word_within _ (by decide), word_within _ (by decide),
    word_within _ (by decide), word_within _ (by decide), word_within _ (by decide), ⟨hmark, trivial⟩,
    word_within _ (by decide)⟩

/-- A keyword as the pattern reads it. -/
def IsKeyword (key : Text) : Prop := (key, []) ∈ keyword.steps key

theorem IsKeyword.chars {key : Text} (h : IsKeyword key) : ∀ c ∈ key, isKeyChar c = true := keyword_within.taken h

theorem IsKeyword.ne {key : Text} (h : IsKeyword key) : key ≠ [] := by
  rintro rfl
  revert h
  unfold IsKeyword
  decide

/-- The parts of a match: keyword, blanks, separator, blanks and the whole value. -/
structure PairParts (text key blanks : Text) (sep : Char) (blanks' value rest : Text) : Prop where
  text_eq : text = (key ++ blanks) ++ sep :: (blanks' ++ (value ++ rest))
  key : IsKeyword key
  blanks : ∀ c ∈ blanks, isSpace c = true
  sep : isAssign sep = true
  blanks' : ∀ c ∈ blanks', isSpace c = true
  value_ne : value ≠ []
  value : ∀ c ∈ value, isValueChar c = true
  whole : EndsValue rest

theorem pairRule_plain : pairRule.Plain where
  starts _ _ := rfl
  masks _ _ h := (mem_plus.mp h).1

theorem not_space_of_value {c : Char} (h : isValueChar c = true) : isSpace c = false := by
  unfold isValueChar at h
  cases hspace : isSpace c with
  | false => rfl
  | true =>
    rw [hspace] at h
    cases h

theorem space_classes {c : Char} (h : isSpace c = true) : isAssign c = false ∧ isKeyChar c = false := by
  constructor
  · by_contra hassign
    rw [Bool.not_eq_false] at hassign
    rcases assign_cases hassign with rfl | rfl <;> exact absurd h (by decide)
  · by_contra hkey
    rw [Bool.not_eq_false] at hkey
    rw [(isKeyChar.classes hkey).2.2.2.2] at h
    cases h

/-- The whole run of a class before a place where it ends. -/
theorem whole_unique {p : Char → Bool} {run run' rest rest' : Text} (hrun : ∀ c ∈ run, p c = true)
    (hrun' : ∀ c ∈ run', p c = true) (hrest : ∀ c ∈ rest.head?, p c = false) (hrest' : ∀ c ∈ rest'.head?, p c = false)
    (h : run ++ rest = run' ++ rest') : run = run' ∧ rest = rest' := by
  rcases List.append_eq_append_iff.mp h with ⟨more, rfl, rfl⟩ | ⟨more, rfl, rfl⟩
  · cases more with
    | nil => exact ⟨(List.append_nil _).symm, rfl⟩
    | cons e more =>
      have he := hrest e rfl
      rw [hrun' e (by simp)] at he
      cases he
  · cases more with
    | nil => exact ⟨List.append_nil _, rfl⟩
    | cons e more =>
      have he := hrest' e rfl
      rw [hrun e (by simp)] at he
      cases he

theorem PairParts.not_assign {text key blanks blanks' value rest : Text} {sep : Char}
    (h : PairParts text key blanks sep blanks' value rest) : ∀ c ∈ key ++ blanks, (!isAssign c) = true := by
  intro c hc
  rcases List.mem_append.mp hc with hc | hc
  · rw [(isKeyChar.classes (h.key.chars c hc)).2.2.2.1]
    rfl
  · rw [(space_classes (h.blanks c hc)).1]
    rfl

theorem PairParts.unique {text key blanks blanks' value rest key' blanks₁ blanks₁' value' rest' : Text} {sep sep' : Char}
    (h : PairParts text key blanks sep blanks' value rest) (h' : PairParts text key' blanks₁ sep' blanks₁' value' rest') :
    key ++ blanks = key' ++ blanks₁ ∧ sep = sep' ∧ blanks' = blanks₁' ∧ rest = rest' := by
  obtain ⟨hhead, rfl, hbehind⟩ := run_unique h.not_assign h'.not_assign (show (!isAssign sep) = false by rw [h.sep]; rfl)
    (show (!isAssign sep') = false by rw [h'.sep]; rfl) (h.text_eq.symm.trans h'.text_eq)
  obtain ⟨c, cs, rfl⟩ := List.exists_cons_of_ne_nil h.value_ne
  obtain ⟨c', cs', rfl⟩ := List.exists_cons_of_ne_nil h'.value_ne
  obtain ⟨rfl, rfl, hvalue⟩ := run_unique h.blanks' h'.blanks'
    (not_space_of_value (h.value c List.mem_cons_self)) (not_space_of_value (h'.value c' List.mem_cons_self)) hbehind
  obtain ⟨-, rfl⟩ := whole_unique (fun d hd => h.value d (List.mem_cons_of_mem c hd))
    (fun d hd => h'.value d (List.mem_cons_of_mem c hd)) h.whole h'.whole hvalue
  exact ⟨hhead, rfl, rfl, rfl⟩

theorem pair_parts_of_match {text kept masked rest : Text}
    (h : pairRule.matchAt none text = some (kept, masked, rest)) :
    ∃ key blanks sep blanks' value, PairParts text key blanks sep blanks' value rest ∧
      kept = (key ++ blanks) ++ sep :: blanks' := by
  obtain ⟨middle, hkept, hmasked⟩ := Rule.head?_of_matchAt h
  obtain ⟨hne, hvalue, rfl⟩ := mem_plus.mp (List.mem_of_mem_head? (Option.mem_def.mpr hmasked))
  have hwhole := head?_plus hmasked
  obtain ⟨⟨key, behind⟩, hkey, ⟨taken, middle'⟩, htail, heq⟩ := mem_seq.mp hkept
  obtain ⟨rfl, rfl⟩ := Prod.mk.inj heq
  have htext : text = key ++ behind := (steps_append hkey).symm
  subst htext
  obtain ⟨blanks, _, _, hblanks, rfl, htail, rfl⟩ := mem_seq_many.mp htail
  obtain ⟨sep, _, blanks', hsep, rfl, htail, rfl⟩ := mem_seq_one.mp htail
  obtain ⟨hblanks', rfl⟩ := mem_many.mp htail
  have hkeyword : IsKeyword key := by
    have hlocal := steps_local hkey []
    rw [List.append_nil] at hlocal
    exact hlocal
  refine ⟨key, blanks, sep, blanks', masked, ⟨?_, hkeyword, hblanks, hsep, hblanks', hne, hvalue, hwhole⟩, ?_⟩
  · simp only [List.append_assoc]
  · simp only [List.append_assoc]

theorem pair_match_of_parts {text key blanks blanks' value rest : Text} {sep : Char}
    (h : PairParts text key blanks sep blanks' value rest) :
    ∃ masked, pairRule.matchAt none text = some ((key ++ blanks) ++ sep :: blanks', masked, rest) := by
  have hkept : ((key ++ blanks) ++ sep :: blanks', value ++ rest) ∈ pairRule.kept.steps text := by
    refine mem_seq.mpr ⟨(key, blanks ++ sep :: (blanks' ++ (value ++ rest))), ?_, (blanks ++ sep :: blanks', value ++ rest),
      ?_, ?_⟩
    · have hkey : (key, []) ∈ keyword.steps (key ++ []) := by
        rw [List.append_nil]
        exact h.key
      rw [h.text_eq, List.append_assoc]
      exact steps_local hkey _
    · exact mem_seq_many.mpr ⟨blanks, _, _, h.blanks, rfl,
        mem_seq_one.mpr ⟨sep, _, _, h.sep, rfl, mem_many.mpr ⟨h.blanks', rfl⟩, rfl⟩, rfl⟩
    · simp only [List.append_assoc]
  have hsome := Rule.matchAt_isSome pairRule (show pairRule.starts none text = true from rfl) hkept
    (show (value, rest) ∈ pairRule.masked.steps (value ++ rest) from mem_plus.mpr ⟨h.value_ne, h.value, rfl⟩)
  obtain ⟨⟨kept, masked, rest'⟩, hmatch⟩ := Option.isSome_iff_exists.mp hsome
  obtain ⟨key', blanks₁, sep', blanks₁', value', h', rfl⟩ := pair_parts_of_match hmatch
  obtain ⟨hhead, rfl, rfl, rfl⟩ := h.unique h'
  exact ⟨masked, by rw [hmatch, hhead]⟩

theorem pair_replaceAll {text key blanks blanks' value rest : Text} {sep : Char}
    (h : PairParts text key blanks sep blanks' value rest) :
    pairRule.replaceAll text =
      (key ++ blanks) ++ sep :: blanks' ++ ['*', '*', '*'] ++ pairRule.replaceAll rest := by
  obtain ⟨masked, hmatch⟩ := pair_match_of_parts h
  exact pairRule_plain.replaceAll_some hmatch

theorem pair_replaceAll_none {c : Char} {text : Text}
    (h : ∀ key blanks sep blanks' value rest, ¬ PairParts (c :: text) key blanks sep blanks' value rest) :
    pairRule.replaceAll (c :: text) = c :: pairRule.replaceAll text := by
  refine pairRule_plain.replaceAll_none ?_
  cases hmatch : pairRule.matchAt none (c :: text) with
  | none => rfl
  | some m =>
    obtain ⟨kept, masked, rest⟩ := m
    obtain ⟨key, blanks, sep, blanks', value, hparts, -⟩ := pair_parts_of_match hmatch
    exact absurd hparts (h key blanks sep blanks' value rest)

/-! ### The value of a pair -/

/-- A value as the pattern reads it. -/
structure IsValue (value : Text) : Prop where
  ne : value ≠ []
  chars : ∀ c ∈ value, isValueChar c = true

theorem CleanValue.isValue {value : Text} (h : CleanValue value) : IsValue value := ⟨h.ne, h.value⟩

/-- The first letter of a class that is missing, if one is. -/
theorem all_or_first (p : Char → Bool) (text : Text) :
    (∀ c ∈ text, p c = true) ∨ ∃ run d more, text = run ++ d :: more ∧ (∀ c ∈ run, p c = true) ∧ p d = false := by
  induction text with
  | nil => exact .inl fun c hc => absurd hc List.not_mem_nil
  | cons c text ih =>
    cases hc : p c with
    | false => exact .inr ⟨[], c, text, rfl, fun d hd => absurd hd List.not_mem_nil, hc⟩
    | true =>
      rcases ih with hall | ⟨run, d, more, rfl, hrun, hd⟩
      · exact .inl (List.forall_mem_cons.mpr ⟨hc, hall⟩)
      · exact .inr ⟨c :: run, d, more, rfl, List.forall_mem_cons.mpr ⟨hc, hrun⟩, hd⟩

section Hidden

variable {key post : Text} {sep : Char} (hkey : IsKeyword key) (hsep : isAssign sep = true) (hpost : EndsValue post)

include hkey hsep hpost

/-- A match that begins before a pair or with it ends before it, or takes the whole value. -/
theorem pair_cases {before value k w₁ w₂ x rest : Text} {a : Char} (hvalue : IsValue value)
    (h : PairParts (before ++ assignment key sep value post) k w₁ a w₂ x rest) :
    (∃ before' : Text, before'.length < before.length ∧ ∀ value', IsValue value' →
      PairParts (before ++ assignment key sep value' post) k w₁ a w₂ x (before' ++ assignment key sep value' post)) ∨
    ∃ f : Text → Text, ∀ value', IsValue value' →
      PairParts (before ++ assignment key sep value' post) k w₁ a w₂ (f value') post := by
  have hassign : ∀ {d : Char}, isAssign d = true → d ∉ key := by
    intro d hd hmem
    have hnot := (isKeyChar.classes (hkey.chars d hmem)).2.2.2.1
    rw [hd] at hnot
    cases hnot
  have hsepValue : isValueChar sep = true := by rcases assign_cases hsep with rfl | rfl <;> decide
  have htext : (k ++ w₁) ++ a :: (w₂ ++ (x ++ rest)) = (before ++ key) ++ sep :: (value ++ post) := by
    rw [← h.text_eq, assignment, List.append_assoc]
  obtain ⟨x₀, xs, rfl⟩ := List.exists_cons_of_ne_nil h.value_ne
  have hx₀ := h.value x₀ List.mem_cons_self
  have hxs : ∀ c ∈ xs, isValueChar c = true := fun c hc => h.value c (List.mem_cons_of_mem x₀ hc)
  rcases cut htext with ⟨more, hfirst, hbehind⟩ | ⟨more, hrun, hsecond⟩
  · -- the separator of the match stands before the key
    rcases cut hfirst.symm with ⟨before₁, rfl, rfl⟩ | ⟨m, -, hm⟩
    · rcases cut (show w₂ ++ x₀ :: (xs ++ rest) = (before₁ ++ key) ++ sep :: (value ++ post) from hbehind) with
        ⟨more₂, hkeyed, hxs_rest⟩ | ⟨m, hw₂, -⟩
      · rcases all_or_first isValueChar more₂ with hall | ⟨run, d, more₃, rfl, hrun, hd⟩
        · -- the value of the match takes the pair
          have htaken : ∀ {value' : Text}, IsValue value' → ∀ c ∈ more₂ ++ sep :: value', isValueChar c = true := by
            intro value' hvalue' c hc
            rcases List.mem_append.mp hc with hc | hc
            · exact hall c hc
            · rcases List.mem_cons.mp hc with rfl | hc
              · exact hsepValue
              · exact hvalue'.chars c hc
          have hrest : rest = post :=
            (whole_unique hxs (htaken hvalue) h.whole hpost (by simpa using hxs_rest)).2
          refine .inr ⟨fun value' => x₀ :: (more₂ ++ sep :: value'), fun value' hvalue' => ?_⟩
          refine ⟨?_, h.key, h.blanks, h.sep, h.blanks', List.cons_ne_nil _ _, ?_, hpost⟩
          · have hlist := congrArg (· ++ sep :: (value' ++ post)) hkeyed
            simpa [assignment] using hlist
          · exact List.forall_mem_cons.mpr ⟨hx₀, htaken hvalue'⟩
        · -- the value of the match ends before the pair
          have hkeyed' : (w₂ ++ x₀ :: run) ++ d :: more₃ = before₁ ++ key := by
            rw [hkeyed]
            simp
          rcases cut hkeyed' with ⟨before₂, rfl, rfl⟩ | ⟨m, -, hm⟩
          · have hbehind' : xs ++ rest = run ++ d :: (before₂ ++ key ++ sep :: (value ++ post)) := by
              simpa using hxs_rest
            have hends : EndsValue (d :: (before₂ ++ key ++ sep :: (value ++ post))) := fun c hc => by
              cases hc
              exact hd
            have hrest := whole_unique hxs hrun h.whole hends hbehind'
            refine .inl ⟨d :: before₂, ?_, fun value' hvalue' => ?_⟩
            · simp only [List.length_append, List.length_cons]
              omega
            · refine ⟨?_, h.key, h.blanks, h.sep, h.blanks', h.value_ne, h.value, ?_⟩
              · rw [hrest.1]
                simp [assignment]
              · intro c hc
                cases hc
                exact hd
          · have hmem : d ∈ key := by
              rw [hm]
              simp
            have hvalued := (isKeyChar.classes (hkey.chars d hmem)).2.2.1
            rw [hd] at hvalued
            cases hvalued
      · obtain ⟨c, cs, rfl⟩ := List.exists_cons_of_ne_nil hkey.ne
        have hspace := h.blanks' c (by rw [hw₂]; simp)
        rw [(isKeyChar.classes (hkey.chars c List.mem_cons_self)).2.2.2.2] at hspace
        cases hspace
    · exact absurd (by rw [hm]; simp) (hassign h.sep)
  · -- the separator of the match is the one of the pair
    cases more with
    | cons e more =>
      obtain ⟨rfl, -⟩ := List.cons.inj hsecond
      have hnot := h.not_assign sep (by rw [hrun]; simp)
      rw [hsep] at hnot
      cases hnot
    | nil =>
      obtain ⟨rfl, hvalued⟩ := List.cons.inj hsecond
      have hw₂ : w₂ = [] := by
        cases w₂ with
        | nil => rfl
        | cons s w₂ =>
          obtain ⟨c, cs, rfl⟩ := List.exists_cons_of_ne_nil hvalue.ne
          have hspace := not_space_of_value (hvalue.chars c List.mem_cons_self)
          rw [(List.cons.inj hvalued).1, h.blanks' s List.mem_cons_self] at hspace
          cases hspace
      subst hw₂
      refine .inr ⟨fun value' => value', fun value' hvalue' => ?_⟩
      refine ⟨?_, h.key, h.blanks, h.sep, h.blanks', hvalue'.ne, hvalue'.chars, hpost⟩
      rw [hrun]
      simp [assignment]

/-- The second pattern gives one text for all values of a pair. -/
theorem pair_hidden (before : Text) {value value' : Text} (hvalue : IsValue value) (hvalue' : IsValue value') :
    pairRule.replaceAll (before ++ assignment key sep value post) =
      pairRule.replaceAll (before ++ assignment key sep value' post) := by
  induction hn : before.length using Nat.strong_induction_on generalizing before with
  | _ n ih =>
    by_cases hparts : ∃ k w₁ a w₂ x rest, PairParts (before ++ assignment key sep value post) k w₁ a w₂ x rest
    · obtain ⟨k, w₁, a, w₂, x, rest, h⟩ := hparts
      rcases pair_cases hkey hsep hpost hvalue h with ⟨before', hlt, hall⟩ | ⟨f, hall⟩
      · rw [pair_replaceAll (hall value hvalue), pair_replaceAll (hall value' hvalue'), ih _ (hn ▸ hlt) before' rfl]
      · rw [pair_replaceAll (hall value hvalue), pair_replaceAll (hall value' hvalue')]
    · have hparts' : ¬ ∃ k w₁ a w₂ x rest,
          PairParts (before ++ assignment key sep value' post) k w₁ a w₂ x rest := by
        rintro ⟨k, w₁, a, w₂, x, rest, h⟩
        rcases pair_cases hkey hsep hpost hvalue' h with ⟨before', -, hall⟩ | ⟨f, hall⟩
        · exact hparts ⟨k, w₁, a, w₂, x, _, hall value hvalue⟩
        · exact hparts ⟨k, w₁, a, w₂, f value, post, hall value hvalue⟩
      cases before with
      | nil =>
        refine absurd ⟨key, [], sep, [], value, post, ?_⟩ hparts
        refine ⟨by simp [assignment], hkey, ?_, hsep, ?_, hvalue.ne, hvalue.chars, hpost⟩
        · exact fun c hc => absurd hc List.not_mem_nil
        · exact fun c hc => absurd hc List.not_mem_nil
      | cons c before =>
        have hnext := ih before.length (by rw [← hn, List.length_cons]; omega) before rfl
        have hnone := pair_replaceAll_none fun k w₁ a w₂ x rest h => hparts ⟨k, w₁, a, w₂, x, rest, h⟩
        have hnone' := pair_replaceAll_none fun k w₁ a w₂ x rest h => hparts' ⟨k, w₁, a, w₂, x, rest, h⟩
        exact hnone.trans ((congrArg (c :: ·) hnext).trans hnone'.symm)

end Hidden

end Jaiba.Connections.Redact
