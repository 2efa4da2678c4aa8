import Jaiba.Lib.Like
import Jaiba.Server.SqlBuilder

/-!
# Text filters (`compile_filter`, `scalar_string`)

`Contains` and `StartsWith` put the text of their value between wildcards and
leave it to `LIKE`. What they mean is a text that contains the value, or starts
with it, as it is.
-/

namespace Jaiba.Server.SqlBuilder
open Jaiba.Lib Like

/-- The operators that bind a pattern. -/
inductive TextOperator where
  | contains | startsWith
  deriving Repr, DecidableEq

namespace TextOperator

def operator : TextOperator → FilterOperator
  | .contains => .contains
  | .startsWith => .startsWith

/-- The wildcard before the text. -/
def opening : TextOperator → String
  | .contains => "%"
  | .startsWith => ""

/-- What the operator asks of a column. -/
def Means : TextOperator → List Char → List Char → Prop
  | .contains, wanted, text => wanted <:+: text
  | .startsWith, wanted, text => wanted <+: text

end TextOperator

/-- Strings, numbers and booleans. -/
def isScalar : Json → Bool
  | .string _ | .number _ | .bool _ => true
  | _ => false

variable {escape : Option Char} {d : Dialect} {op : TextOperator} {field : String} {v : Json}

/-- On a database with this escape character, the filter finds the columns that
its value means, and a value that is not a scalar is refused. -/
structure Literal (escape : Option Char) (d : Dialect) (op : TextOperator) (field : String)
    (v : Json) : Prop where
  finds : ∀ parameters clause, compileFilter d ⟨field, op.operator, v⟩ parameters = .ok clause →
    ∃ pattern, clause.2 = parameters ++ [.string pattern] ∧
      ∀ text, like escape pattern.toList text = true ↔ op.Means (scalarString v).toList text
  refuses : isScalar v = false → ∀ parameters, ∃ e,
    compileFilter d ⟨field, op.operator, v⟩ parameters = .error e

/-- The pattern a value is bound as. -/
def patternOf (op : TextOperator) (v : Json) : String := op.opening ++ scalarString v ++ "%"

theorem compileFilter_pattern (d : Dialect) (op : TextOperator) (field : String) (v : Json)
    (parameters : List Json) {quoted : String} (hquoted : d.quote field = .ok quoted)
    (hv : isNull v = false) : ∃ clause,
      compileFilter d ⟨field, op.operator, v⟩ parameters = .ok clause ∧
        clause.2 = parameters ++ [.string (patternOf op v)] := by
  refine ⟨comparison d quoted (" " ++ d.likeKeyword ++ " ") parameters (.string (patternOf op v)),
    ?_, rfl⟩
  simp only [compileFilter, hquoted, hv, Bool.false_and, Bool.false_eq_true, if_false]
  cases op with
  | contains => rfl
  | startsWith =>
    rw [patternOf, TextOperator.opening, String.empty_append]
    rfl

theorem compileFilter_null (d : Dialect) (op : TextOperator) (field : String) (hv : isNull v = true)
    (parameters : List Json) : ∃ e, compileFilter d ⟨field, op.operator, v⟩ parameters = .error e := by
  unfold compileFilter
  cases d.quote field with
  | error e => exact ⟨e, rfl⟩
  | ok quoted =>
    cases op with
    | contains => exact ⟨_, by simp only [hv]; rfl⟩
    | startsWith => exact ⟨_, by simp only [hv]; rfl⟩

theorem like_patternOf (hescape : Escapes escape) (op : TextOperator)
    (hplain : ∀ c ∈ (scalarString v).toList, Plain escape c) (text : List Char) :
    like escape (patternOf op v).toList text = true ↔ op.Means (scalarString v).toList text := by
  cases op with
  | contains =>
    have hpattern : (patternOf .contains v).toList = '%' :: ((scalarString v).toList ++ ['%']) := by
      simp [patternOf, TextOperator.opening]
    rw [hpattern, like_containing hescape hplain]
    rfl
  | startsWith =>
    have hpattern : (patternOf .startsWith v).toList = (scalarString v).toList ++ ['%'] := by
      simp [patternOf, TextOperator.opening]
    rw [hpattern, like_starting hplain]
    rfl

/-- Some column matches the pattern of a value with a special character and
does not have its text. -/
theorem patternOf_mismatch (hescape : Escapes escape) (op : TextOperator)
    (hspecial : ¬ ∀ c ∈ (scalarString v).toList, Plain escape c) :
    ∃ text, like escape (patternOf op v).toList text = true ∧
      ¬ op.Means (scalarString v).toList text := by
  obtain ⟨text, hlike, hwithin⟩ := exists_mismatch hescape hspecial
  cases op with
  | contains =>
    have hpattern : (patternOf .contains v).toList = '%' :: ((scalarString v).toList ++ ['%']) := by
      simp [patternOf, TextOperator.opening]
    refine ⟨text, ?_, hwithin⟩
    rw [hpattern, like, parse_any hescape]
    exact accepts_any.mpr ⟨[], text, rfl, hlike⟩
  | startsWith =>
    have hpattern : (patternOf .startsWith v).toList = (scalarString v).toList ++ ['%'] := by
      simp [patternOf, TextOperator.opening]
    exact ⟨text, hpattern ▸ hlike, fun hstart => hwithin hstart.isInfix⟩

/-- A filter that is compiled and means what it says has a scalar without
special characters. -/
theorem Literal.plain (h : Literal escape d op field v) (hescape : Escapes escape)
    {quoted : String} (hquoted : d.quote field = .ok quoted) (hnull : isNull v = false) :
    isScalar v = true ∧ ∀ c ∈ (scalarString v).toList, Plain escape c := by
  obtain ⟨clause, hok, hbound⟩ := compileFilter_pattern d op field v [] hquoted hnull
  constructor
  · by_contra hnot
    obtain ⟨e, he⟩ := h.refuses (Bool.eq_false_iff.mpr hnot) []
    rw [hok] at he
    cases he
  · by_contra hspecial
    obtain ⟨text, hlike, hmeans⟩ := patternOf_mismatch hescape op hspecial
    obtain ⟨pattern, hpattern, hfinds⟩ := h.finds [] clause hok
    rw [hbound] at hpattern
    cases hpattern
    exact hmeans ((hfinds text).mp hlike)

theorem literal_of_plain (hescape : Escapes escape) {quoted : String}
    (hquoted : d.quote field = .ok quoted) (hscalar : isScalar v = true) (hnull : isNull v = false)
    (hplain : ∀ c ∈ (scalarString v).toList, Plain escape c) : Literal escape d op field v where
  finds := fun parameters clause hok => by
    obtain ⟨clause', hok', hbound⟩ := compileFilter_pattern d op field v parameters hquoted hnull
    rw [hok] at hok'
    cases hok'
    exact ⟨patternOf op v, hbound, like_patternOf hescape op hplain⟩
  refuses := fun hnot => by
    rw [hscalar] at hnot
    cases hnot

theorem literal_of_refused
    (h : ∀ parameters, ∃ e, compileFilter d ⟨field, op.operator, v⟩ parameters = .error e) :
    Literal escape d op field v where
  finds := fun parameters clause hok => by
    obtain ⟨e, he⟩ := h parameters
    rw [he] at hok
    cases hok
  refuses := fun _ => h

/-- A text filter means what it says exactly when it compiles to nothing or its
value is a scalar without special characters. -/
theorem literal_iff (escape : Option Char) (hescape : Escapes escape) (d : Dialect)
    (op : TextOperator) (field : String) (v : Json) :
    Literal escape d op field v ↔ (∃ e, d.quote field = .error e) ∨ isNull v = true ∨
      isScalar v = true ∧ ∀ c ∈ (scalarString v).toList, Plain escape c := by
  cases hquoted : d.quote field with
  | error e =>
    refine iff_of_true (literal_of_refused fun parameters => ⟨e, ?_⟩) (.inl ⟨e, rfl⟩)
    simp only [compileFilter, hquoted]
    rfl
  | ok quoted =>
    cases hnull : isNull v with
    | true =>
      exact iff_of_true (literal_of_refused (compileFilter_null d op field hnull)) (.inr (.inl rfl))
    | false =>
      constructor
      · intro h
        exact .inr (.inr (h.plain hescape hquoted hnull))
      · rintro (⟨e, he⟩ | hfalse | ⟨hscalar, hplain⟩)
        · cases he
        · cases hfalse
        · exact literal_of_plain hescape hquoted hscalar hnull hplain

theorem literal_word : Literal (some '\\') .mySql .contains "city" (.string "Li") := by
  refine (literal_iff (some '\\') ⟨by decide, by decide⟩ _ _ _ _).mpr (.inr (.inr ⟨rfl, ?_⟩))
  have hletters : "Li".toList = ['L', 'i'] := by decide
  simp only [scalarString, hletters, List.forall_mem_cons]
  refine ⟨⟨by decide, by decide, by decide⟩, ⟨by decide, by decide, by decide⟩, ?_⟩
  exact fun c hc => absurd hc List.not_mem_nil

/-- A discount of `50%` is found where there is only a 50, and a list is a
pattern that matches every text. -/
theorem percent_matches_all :
    like (some '\\') (patternOf .contains (.string "50%")).toList "50".toList = true ∧
      ¬ Literal (some '\\') .mySql .contains "discount" (.string "50%") ∧
      ¬ Literal (some '\\') .mySql .contains "discount" (.array []) := by
  have hquoted : Dialect.mySql.quote "discount" = .ok "`discount`" := by rfl
  have hescape : Escapes (some '\\') := ⟨by decide, by decide⟩
  refine ⟨by decide, fun h => ?_, fun h => ?_⟩
  · have hpercent := (h.plain hescape hquoted rfl).2 '%' (by decide)
    exact hpercent.1 rfl
  · cases (h.plain hescape hquoted rfl).1

end Jaiba.Server.SqlBuilder
