import Mathlib.Data.List.Infix

/-!
# Patterns of SQL `LIKE`

`%` stands for any text, `_` for any character, and the escape character, where
the database has one, makes the character after it stand for itself.
-/

namespace Jaiba.Lib.Like

inductive Token where
  | any
  | one
  | char (c : Char)
  deriving Repr, DecidableEq

/-- The tokens of a pattern. An escape character at the very end stands for itself. -/
def parse (escape : Option Char) : List Char → List Token
  | [] => []
  | [c] =>
    if c = '%' then [.any]
    else if c = '_' then [.one]
    else [.char c]
  | c :: d :: rest =>
    if escape = some c then .char d :: parse escape rest
    else if c = '%' then .any :: parse escape (d :: rest)
    else if c = '_' then .one :: parse escape (d :: rest)
    else .char c :: parse escape (d :: rest)

theorem parse_cons (escape : Option Char) (c d : Char) (rest : List Char) :
    parse escape (c :: d :: rest) =
      if escape = some c then .char d :: parse escape rest
      else if c = '%' then .any :: parse escape (d :: rest)
      else if c = '_' then .one :: parse escape (d :: rest)
      else .char c :: parse escape (d :: rest) := rfl

/-- The tokens match the whole text. -/
def accepts : List Token → List Char → Bool
  | [], text => text.isEmpty
  | .any :: tokens, text => text.tails.any (accepts tokens)
  | .one :: tokens, text =>
    match text with
    | [] => false
    | _ :: rest => accepts tokens rest
  | .char c :: tokens, text =>
    match text with
    | [] => false
    | d :: rest => c == d && accepts tokens rest

/-- `text LIKE pattern`. -/
def like (escape : Option Char) (pattern text : List Char) : Bool :=
  accepts (parse escape pattern) text

variable {escape : Option Char} {tokens : List Token} {text : List Char}

theorem accepts_any : accepts (.any :: tokens) text = true ↔
    ∃ skipped rest, text = skipped ++ rest ∧ accepts tokens rest = true := by
  rw [accepts, List.any_eq_true]
  constructor
  · rintro ⟨rest, hrest, haccepts⟩
    obtain ⟨skipped, rfl⟩ := (List.mem_tails rest text).mp hrest
    exact ⟨skipped, rest, rfl, haccepts⟩
  · rintro ⟨skipped, rest, rfl, haccepts⟩
    exact ⟨rest, (List.mem_tails rest _).mpr (List.suffix_append skipped rest), haccepts⟩

theorem accepts_chars {cs : List Char} : accepts (cs.map Token.char ++ tokens) text = true ↔
    ∃ rest, text = cs ++ rest ∧ accepts tokens rest = true := by
  induction cs generalizing text with
  | nil => simp
  | cons c cs ih =>
    cases text with
    | nil => simp [accepts]
    | cons d text =>
      rw [List.map_cons, List.cons_append, accepts, Bool.and_eq_true, beq_iff_eq, ih]
      constructor
      · rintro ⟨rfl, rest, rfl, hrest⟩
        exact ⟨rest, rfl, hrest⟩
      · rintro ⟨rest, heq, hrest⟩
        cases heq
        exact ⟨rfl, rest, rfl, hrest⟩

theorem accepts_any_last : accepts [.any] text = true :=
  accepts_any.mpr ⟨text, [], (List.append_nil text).symm, rfl⟩

/-! ### Texts without special characters -/

/-- The character stands for itself in a pattern. -/
def Plain (escape : Option Char) (c : Char) : Prop := c ≠ '%' ∧ c ≠ '_' ∧ escape ≠ some c

theorem parse_plain {cs : List Char} (h : ∀ c ∈ cs, Plain escape c) (last : Char) :
    parse escape (cs ++ [last]) = cs.map Token.char ++ parse escape [last] := by
  induction cs with
  | nil => rfl
  | cons c cs ih =>
    obtain ⟨hany, hone, hescape⟩ := h c List.mem_cons_self
    have hrest := ih fun d hd => h d (List.mem_cons_of_mem c hd)
    cases cs with
    | nil =>
      rw [List.cons_append, List.nil_append, parse_cons, if_neg hescape, if_neg hany, if_neg hone]
      rfl
    | cons d cs =>
      rw [List.cons_append, List.cons_append, parse_cons, if_neg hescape, if_neg hany, if_neg hone,
        ← List.cons_append, hrest]
      rfl

theorem like_starting {cs : List Char} (h : ∀ c ∈ cs, Plain escape c) :
    like escape (cs ++ ['%']) text = true ↔ cs <+: text := by
  rw [like, parse_plain h, accepts_chars]
  constructor
  · rintro ⟨rest, rfl, -⟩
    exact List.prefix_append cs rest
  · rintro ⟨rest, rfl⟩
    exact ⟨rest, rfl, accepts_any_last⟩

/-- An escape character is none of the wildcards. -/
def Escapes (escape : Option Char) : Prop := escape ≠ some '%' ∧ escape ≠ some '_'

theorem parse_any (hescape : Escapes escape) (pattern : List Char) :
    parse escape ('%' :: pattern) = .any :: parse escape pattern := by
  cases pattern with
  | nil => rfl
  | cons d rest => rw [parse_cons, if_neg hescape.1, if_pos rfl]

theorem like_containing (hescape : Escapes escape) {cs : List Char} (h : ∀ c ∈ cs, Plain escape c) :
    like escape ('%' :: (cs ++ ['%'])) text = true ↔ cs <:+: text := by
  rw [like, parse_any hescape, accepts_any]
  constructor
  · rintro ⟨skipped, rest, rfl, hrest⟩
    obtain ⟨after, hafter⟩ := (like_starting h).mp hrest
    exact ⟨skipped, after, by rw [List.append_assoc, hafter]⟩
  · rintro ⟨before, after, rfl⟩
    exact ⟨before, cs ++ after, by rw [List.append_assoc],
      (like_starting h).mpr (List.prefix_append cs after)⟩

/-! ### Texts with special characters -/

/-- A text that the tokens match. -/
def sample : List Token → List Char
  | [] => []
  | .any :: tokens => sample tokens
  | .one :: tokens => 'a' :: sample tokens
  | .char c :: tokens => c :: sample tokens

theorem accepts_sample (tokens : List Token) : accepts tokens (sample tokens) = true := by
  induction tokens with
  | nil => rfl
  | cons token tokens ih =>
    cases token with
    | any => exact accepts_any.mpr ⟨[], sample tokens, rfl, ih⟩
    | one => exact ih
    | char c => rw [sample, accepts, ih, beq_self_eq_true, Bool.and_self]

/-- The sample of a text is no longer than the text, and is another text unless
every character stands for itself. -/
theorem sample_parse (hescape : Escapes escape) (cs : List Char) :
    (sample (parse escape (cs ++ ['%']))).length ≤ cs.length ∧
      (sample (parse escape (cs ++ ['%'])) = cs → ∀ c ∈ cs, Plain escape c) := by
  induction cs using List.twoStepInduction with
  | nil => exact ⟨le_refl _, fun _ c hc => absurd hc List.not_mem_nil⟩
  | singleton c =>
    rw [List.singleton_append, parse_cons]
    split_ifs with hc hany hone
    · refine ⟨le_refl _, fun hsame => ?_⟩
      rw [hc] at hescape
      cases hsame
      exact absurd rfl hescape.1
    · exact ⟨by simp [parse, sample], fun hsame => (by cases hsame)⟩
    · refine ⟨by simp [parse, sample], fun hsame => ?_⟩
      rw [hone] at hsame
      cases hsame
    · refine ⟨by simp [parse, sample], fun _ d hd => ?_⟩
      rw [List.mem_singleton.mp hd]
      exact ⟨hany, hone, hc⟩
  | cons_cons c d cs ihtail ih =>
    rw [List.cons_append, List.cons_append, parse_cons]
    split_ifs with hc hany hone
    · refine ⟨?_, fun hsame => ?_⟩
      · rw [sample, List.length_cons, List.length_cons, List.length_cons]
        omega
      · have hlength := congrArg List.length hsame
        rw [sample, List.length_cons, List.length_cons, List.length_cons] at hlength
        omega
    · obtain ⟨hlength, -⟩ := ih d
      rw [List.cons_append] at hlength
      refine ⟨?_, fun hsame => ?_⟩
      · rw [sample, List.length_cons]
        omega
      · have hlong := congrArg List.length hsame
        rw [sample, List.length_cons] at hlong
        omega
    · obtain ⟨hlength, -⟩ := ih d
      rw [List.cons_append] at hlength
      refine ⟨?_, fun hsame => ?_⟩
      · rw [sample, List.length_cons, List.length_cons]
        omega
      · rw [hone] at hsame
        cases hsame
    · obtain ⟨hlength, hplain⟩ := ih d
      rw [List.cons_append] at hlength hplain
      refine ⟨?_, fun hsame => ?_⟩
      · rw [sample, List.length_cons, List.length_cons]
        omega
      · rw [sample, List.cons.injEq] at hsame
        intro x hx
        rcases List.mem_cons.mp hx with rfl | hx
        · exact ⟨hany, hone, hc⟩
        · exact hplain hsame.2 x hx

/-- A text with a special character is not what its pattern looks for: some
text matches and does not contain it. -/
theorem exists_mismatch (hescape : Escapes escape) {cs : List Char}
    (h : ¬ ∀ c ∈ cs, Plain escape c) : ∃ text, like escape (cs ++ ['%']) text = true ∧
      ¬ cs <:+: text := by
  obtain ⟨hlength, hsame⟩ := sample_parse hescape cs
  refine ⟨sample (parse escape (cs ++ ['%'])), accepts_sample _, fun hwithin => h (hsame ?_)⟩
  exact (hwithin.eq_of_length_le hlength).symm

end Jaiba.Lib.Like
