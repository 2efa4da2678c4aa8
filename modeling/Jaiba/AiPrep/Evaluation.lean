import Jaiba.AiPrep.Expression

/-!
# Evaluation of printed expressions

Tokenising undoes the spelling, and the recursive descent gives every printing
of a tree the value of the tree; what it evaluates is a sentence of the grammar.
-/

namespace Jaiba.AiPrep
open Jaiba.Lib

variable {F : Type} {f : Arithmetic F}

/-- What the parser sees of a lexeme. -/
def Lexeme.token (f : Arithmetic F) : Lexeme → Token F
  | .number raw => .number ((f.parse raw).getD f.zero)
  | .ident name => .ident name
  | .plus => .plus
  | .minus => .minus
  | .star => .star
  | .slash => .slash
  | .lParen => .lParen
  | .rParen => .rParen

/-- `str::parse::<f64>` on digits and dots takes those with a digit and at most one dot. -/
def ParsesNumerals (f : Arithmetic F) : Prop :=
  ∀ raw : List Char, raw.all isNumberChar = true → ((f.parse raw).isSome ↔ isNumeral raw = true)

/-! ### Tokens -/

theorem operator?_eq (c : Char) : (operator? c : Option (Token F)) = (Lexeme.operator? c).map (Lexeme.token f) := by
  unfold operator? Lexeme.operator?
  split <;> rfl

theorem isBlank_cases {c : Char} (h : isBlank c = true) : c = ' ' ∨ c = '\t' ∨ c = '\n' ∨ c = '\r' := by
  simpa [isBlank, or_assoc] using h

theorem operator?_cases {c : Char} (h : (Lexeme.operator? c).isSome) :
    c = '+' ∨ c = '-' ∨ c = '*' ∨ c = '/' ∨ c = '(' ∨ c = ')' := by
  unfold Lexeme.operator? at h
  split at h <;> simp_all

theorem isBlank_of_operator {c : Char} (h : (Lexeme.operator? c).isSome) : isBlank c = false := by
  rcases operator?_cases h with rfl | rfl | rfl | rfl | rfl | rfl <;> decide

/-- Where a numeral or a name may begin, neither a blank nor an operator is read. -/
theorem plain_of_class {c : Char} (h : isNumberChar c = true ∨ isIdentStart c = true) :
    isBlank c = false ∧ Lexeme.operator? c = none := by
  constructor
  · by_contra hblank
    rw [Bool.not_eq_false] at hblank
    rcases isBlank_cases hblank with rfl | rfl | rfl | rfl <;> exact absurd h (by decide)
  · by_contra hoperator
    rcases operator?_cases (Option.isSome_iff_ne_none.mpr hoperator) with rfl | rfl | rfl | rfl | rfl | rfl <;>
      exact absurd h (by decide)

theorem isNumberChar_of_identStart {c : Char} (h : isIdentStart c = true) : isNumberChar c = false := by
  have halpha : c.isAlpha = (decide ('A'.val ≤ c.val ∧ c.val ≤ 'Z'.val) || decide ('a'.val ≤ c.val) && decide (c.val ≤ 'z'.val)) := rfl
  have hdigit : c.isDigit = (decide ('0'.val ≤ c.val) && decide (c.val ≤ '9'.val)) := rfl
  by_contra hnumber
  rw [Bool.not_eq_false] at hnumber
  simp only [isIdentStart, isNumberChar, halpha, hdigit, Bool.or_eq_true, Bool.and_eq_true, decide_eq_true_eq] at h hnumber
  rcases hnumber with hdigit | rfl
  · rcases h with (hupper | hlower) | rfl
    · exact absurd (UInt32.le_trans hupper.1 hdigit.2) (by decide)
    · exact absurd (UInt32.le_trans hlower.1 hdigit.2) (by decide)
    · exact absurd hdigit (by decide)
  · exact absurd h (by decide)

/-- A run of characters of one class before a character that is not. -/
theorem takeWhile_run {p : Char → Bool} {run rest : List Char} (hrun : run.all p = true)
    (hend : ∀ c ∈ rest.head?, p c = false) :
    (run ++ rest).takeWhile p = run ∧ (run ++ rest).dropWhile p = rest := by
  induction run with
  | nil =>
    cases rest with
    | nil => exact ⟨rfl, rfl⟩
    | cons c rest =>
      have hc := hend c rfl
      simp [hc]
  | cons c run ih =>
    rw [List.all_cons, Bool.and_eq_true] at hrun
    obtain ⟨htake, hdrop⟩ := ih hrun.2
    rw [List.cons_append, List.takeWhile_cons_of_pos hrun.1, List.dropWhile_cons_of_pos hrun.1, htake]
    exact ⟨rfl, hdrop⟩

theorem dropWhile_end (p : Char → Bool) (s : List Char) : ∀ c ∈ (s.dropWhile p).head?, p c = false := by
  intro c hc
  have h := List.head?_dropWhile_not p s
  rw [Option.mem_def.mp hc] at h
  exact h

theorem tokenizeFrom_spells (hf : ParsesNumerals f) {s : List Char} {w : List Lexeme} (h : Spells s w) :
    ∀ rounds, s.length ≤ rounds → f.tokenizeFrom rounds s = .ok (w.map (Lexeme.token f)) := by
  induction h with
  | nil =>
    intro rounds _
    cases rounds <;> rfl
  | @blank c s w hc _ ih =>
    intro rounds hrounds
    cases rounds with
    | zero => cases hrounds
    | succ rounds =>
      rw [Arithmetic.tokenizeFrom, if_pos hc]
      exact ih rounds (Nat.le_of_succ_le_succ hrounds)
  | @operator c l s w hc _ ih =>
    intro rounds hrounds
    cases rounds with
    | zero => cases hrounds
    | succ rounds =>
      have hblank := isBlank_of_operator (Option.isSome_of_eq_some hc)
      rw [Arithmetic.tokenizeFrom, if_neg (by rw [hblank]; exact Bool.false_ne_true), operator?_eq (f := f), hc,
        ih rounds (Nat.le_of_succ_le_succ hrounds)]
      rfl
  | @number raw s w hraw hend _ ih =>
    intro rounds hrounds
    have hall : raw.all isNumberChar = true := by
      rw [isNumeral, Bool.and_eq_true, Bool.and_eq_true] at hraw
      exact hraw.1.1
    cases raw with
    | nil => cases hraw
    | cons c cs =>
      cases rounds with
      | zero => cases hrounds
      | succ rounds =>
        have hc : isNumberChar c = true := List.all_eq_true.mp hall c List.mem_cons_self
        obtain ⟨hblank, hoperator⟩ := plain_of_class (.inl hc)
        rw [List.all_cons, Bool.and_eq_true] at hall
        obtain ⟨htake, hdrop⟩ := takeWhile_run hall.2 hend
        obtain ⟨number, hnumber⟩ := Option.isSome_iff_exists.mp
          ((hf (c :: cs) (by rw [List.all_cons, hc, hall.2]; rfl)).mpr hraw)
        rw [List.cons_append, List.length_cons, List.length_append] at hrounds
        rw [List.cons_append, Arithmetic.tokenizeFrom, if_neg (by rw [hblank]; exact Bool.false_ne_true),
          operator?_eq (f := f), hoperator, Option.map_none]
        dsimp only
        rw [if_pos hc, htake, hnumber, hdrop]
        dsimp only
        rw [ih rounds (by omega), List.map_cons, Lexeme.token, hnumber]
        rfl
  | @ident name s w hname hend _ ih =>
    intro rounds hrounds
    cases name with
    | nil => cases hname
    | cons c cs =>
      cases rounds with
      | zero => cases hrounds
      | succ rounds =>
        rw [isFieldName, Bool.and_eq_true] at hname
        obtain ⟨hblank, hoperator⟩ := plain_of_class (.inr hname.1)
        have hnumber := isNumberChar_of_identStart hname.1
        obtain ⟨htake, hdrop⟩ := takeWhile_run hname.2 hend
        rw [List.cons_append, List.length_cons, List.length_append] at hrounds
        rw [List.cons_append, Arithmetic.tokenizeFrom, if_neg (by rw [hblank]; exact Bool.false_ne_true),
          operator?_eq (f := f), hoperator, Option.map_none]
        dsimp only
        rw [if_neg (by rw [hnumber]; exact Bool.false_ne_true), if_pos hname.1, htake, hdrop,
          ih rounds (by omega), List.map_cons, Lexeme.token]
        rfl

/-- What is tokenised is spelled. -/
theorem spells_of_tokenizeFrom (hf : ParsesNumerals f) {rounds : ℕ} {s : List Char} {tokens : List (Token F)}
    (hrounds : s.length ≤ rounds) (h : f.tokenizeFrom rounds s = .ok tokens) :
    ∃ w, Spells s w ∧ tokens = w.map (Lexeme.token f) := by
  induction rounds generalizing s tokens with
  | zero =>
    have hnil : s = [] := List.length_eq_zero_iff.mp (Nat.le_zero.mp hrounds)
    subst hnil
    cases h
    exact ⟨[], .nil, rfl⟩
  | succ rounds ih =>
    cases s with
    | nil =>
      cases h
      exact ⟨[], .nil, rfl⟩
    | cons c cs =>
      have hlength : cs.length ≤ rounds := Nat.le_of_succ_le_succ hrounds
      have hdropped : ∀ p : Char → Bool, (cs.dropWhile p).length ≤ rounds :=
        fun p => Nat.le_trans (List.length_dropWhile_le p cs) hlength
      rw [Arithmetic.tokenizeFrom] at h
      by_cases hblank : isBlank c = true
      · rw [if_pos hblank] at h
        obtain ⟨w, hw, heq⟩ := ih hlength h
        exact ⟨w, .blank hblank hw, heq⟩
      rw [if_neg hblank, operator?_eq (f := f)] at h
      cases hoperator : Lexeme.operator? c with
      | some l =>
        rw [hoperator, Option.map_some] at h
        dsimp only at h
        obtain ⟨rest, hrest, rfl⟩ := map_ok h
        obtain ⟨w, hw, rfl⟩ := ih hlength hrest
        exact ⟨l :: w, .operator hoperator hw, rfl⟩
      | none =>
        rw [hoperator, Option.map_none] at h
        dsimp only at h
        by_cases hnumber : isNumberChar c = true
        · rw [if_pos hnumber] at h
          have hall : (c :: cs.takeWhile isNumberChar).all isNumberChar = true := by
            rw [List.all_cons, hnumber, List.all_takeWhile]
            rfl
          cases hparse : f.parse (c :: cs.takeWhile isNumberChar) with
          | none =>
            rw [hparse] at h
            cases h
          | some number =>
            rw [hparse] at h
            dsimp only at h
            obtain ⟨rest, hrest, rfl⟩ := map_ok h
            obtain ⟨w, hw, rfl⟩ := ih (hdropped _) hrest
            have hraw := (hf _ hall).mp (Option.isSome_of_eq_some hparse)
            refine ⟨.number (c :: cs.takeWhile isNumberChar) :: w, ?_, ?_⟩
            · have hspells := Spells.number hraw (dropWhile_end isNumberChar cs) hw
              rw [List.cons_append, List.takeWhile_append_dropWhile] at hspells
              exact hspells
            · rw [List.map_cons, Lexeme.token, hparse]
              rfl
        · rw [if_neg hnumber] at h
          by_cases hstart : isIdentStart c = true
          · rw [if_pos hstart] at h
            obtain ⟨rest, hrest, rfl⟩ := map_ok h
            obtain ⟨w, hw, rfl⟩ := ih (hdropped _) hrest
            refine ⟨.ident (c :: cs.takeWhile isIdentChar) :: w, ?_, rfl⟩
            have hname : isFieldName (c :: cs.takeWhile isIdentChar) = true := by
              rw [isFieldName, hstart, List.all_takeWhile]
              rfl
            have hspells := Spells.ident hname (dropWhile_end isIdentChar cs) hw
            rw [List.cons_append, List.takeWhile_append_dropWhile] at hspells
            exact hspells
          · rw [if_neg hstart] at h
            cases h

/-! ### Every printing gets the value of its tree -/

def startsFactor : List (Token F) → Bool
  | .star :: _ => true
  | .slash :: _ => true
  | _ => false

def startsTerm : List (Token F) → Bool
  | .plus :: _ => true
  | .minus :: _ => true
  | _ => false

theorem termLoop_stop (record : Json) {calls : ℕ} (hcalls : 1 ≤ calls) (value : F) {rest : List (Token F)}
    (h : startsFactor rest = false) : f.termLoop record calls value rest = .ok (value, rest) := by
  obtain ⟨calls, rfl⟩ := Nat.exists_eq_succ_of_ne_zero (Nat.one_le_iff_ne_zero.mp hcalls)
  unfold Arithmetic.termLoop
  split
  · cases h
  · cases h
  · rfl

theorem exprLoop_stop (record : Json) {calls : ℕ} (hcalls : 1 ≤ calls) (value : F) {rest : List (Token F)}
    (h : startsTerm rest = false) : f.exprLoop record calls value rest = .ok (value, rest) := by
  obtain ⟨calls, rfl⟩ := Nat.exists_eq_succ_of_ne_zero (Nat.one_le_iff_ne_zero.mp hcalls)
  unfold Arithmetic.exprLoop
  split
  · cases h
  · cases h
  · rfl

def lexed (f : Arithmetic F) (w : List Lexeme) : List (Token F) := w.map (Lexeme.token f)

theorem lexed_append (v w : List Lexeme) : lexed f (v ++ w) = lexed f v ++ lexed f w := List.map_append

theorem lexed_cons (l : Lexeme) (w : List Lexeme) : lexed f (l :: w) = l.token f :: lexed f w := rfl

theorem lexed_length (w : List Lexeme) : (lexed f w).length = w.length := List.length_map _

/-- What the function of a level does on a printing followed by `rest`; the functions with a loop
go on in it with the value, after as many rounds as operands were read. -/
def Reads (f : Arithmetic F) (record : Json) : Level → Expr → List Lexeme → Prop
  | .primary, e, w => 1 ≤ w.length ∧ ∀ calls, 4 * w.length - 3 ≤ calls → ∀ rest,
      f.parsePrimary record calls (lexed f w ++ rest) = (e.value f record).map fun v => (v, rest)
  | .unary, e, w => 1 ≤ w.length ∧ ∀ calls, 4 * w.length - 2 ≤ calls → ∀ rest,
      f.parseUnary record calls (lexed f w ++ rest) = (e.value f record).map fun v => (v, rest)
  | .term, e, w => ∃ k, 1 ≤ k ∧ k ≤ w.length ∧ ∀ calls, 4 * w.length - 1 ≤ calls → ∀ rest,
      f.parseTerm record calls (lexed f w ++ rest) =
        (e.value f record).bind fun v => f.termLoop record (calls - k) v rest
  | .expr, e, w => ∃ k, 1 ≤ k ∧ k ≤ w.length ∧ ∀ calls, 4 * w.length ≤ calls → ∀ rest, startsFactor rest = false →
      f.parseExpr record calls (lexed f w ++ rest) =
        (e.value f record).bind fun v => f.exprLoop record (calls - k) v rest

theorem parseUnary_plain {record : Json} (calls : ℕ) {tokens : List (Token F)} (h : startsTerm tokens = false) :
    f.parseUnary record (calls + 1) tokens = f.parsePrimary record calls tokens := by
  rw [Arithmetic.parseUnary]
  · rintro rest rfl
    cases h
  · rintro rest rfl
    cases h

theorem startsTerm_primary {e : Expr} {w : List Lexeme} (h : Prints .primary e w) (rest : List (Token F)) :
    startsTerm (lexed f w ++ rest) = false := by
  cases h <;> rfl

/-- One more operand in the loop of a term. -/
theorem reads_factor {record : Json} {a b e : Expr} {v w : List Lexeme} {op : Lexeme} {g : F → F → Except String F}
    (he : e.value f record = (a.value f record).bind fun x => (b.value f record).bind fun y => g x y)
    (hop : ∀ calls x rest, f.termLoop record (calls + 1) x (op.token f :: rest) =
      (f.parseUnary record calls rest).bind fun r => (g x r.1).bind fun z => f.termLoop record calls z r.2)
    (ha : Reads f record .term a v) (hb : Reads f record .unary b w) : Reads f record .term e (v ++ op :: w) := by
  obtain ⟨k, hk, hkv, ha⟩ := ha
  obtain ⟨hw, hb⟩ := hb
  refine ⟨k + 1, by omega, ?_, ?_⟩
  · rw [List.length_append, List.length_cons]
    omega
  · intro calls hcalls rest
    rw [List.length_append, List.length_cons] at hcalls
    obtain ⟨fewer, hfewer⟩ : ∃ fewer, calls - k = fewer + 1 := ⟨calls - k - 1, by omega⟩
    rw [lexed_append, List.append_assoc, ha calls (by omega), he, lexed_cons, List.cons_append, hfewer]
    cases a.value f record with
    | error message => rfl
    | ok x =>
      have hstep : f.termLoop record (fewer + 1) x (op.token f :: (lexed f w ++ rest)) =
          ((b.value f record).map fun y => (y, rest)).bind fun r =>
            (g x r.1).bind fun z => f.termLoop record fewer z r.2 := by
        rw [hop, hb fewer (by omega)]
      refine Eq.trans hstep ?_
      have hcount : calls - (k + 1) = fewer := by omega
      rw [hcount]
      cases b.value f record <;> rfl

/-- One more operand in the loop of an expression. -/
theorem reads_summand {record : Json} {a b e : Expr} {v w : List Lexeme} {op : Lexeme} {g : F → F → F}
    (he : e.value f record = (a.value f record).bind fun x => (b.value f record).map fun y => g x y)
    (hfactor : ∀ rest, startsFactor (op.token f :: rest) = false)
    (hop : ∀ calls x rest, f.exprLoop record (calls + 1) x (op.token f :: rest) =
      (f.parseTerm record calls rest).bind fun r => f.exprLoop record calls (g x r.1) r.2)
    (ha : Reads f record .expr a v) (hb : Reads f record .term b w) : Reads f record .expr e (v ++ op :: w) := by
  obtain ⟨k, hk, hkv, ha⟩ := ha
  obtain ⟨j, hj, hjw, hb⟩ := hb
  refine ⟨k + 1, by omega, ?_, ?_⟩
  · rw [List.length_append, List.length_cons]
    omega
  · intro calls hcalls rest hrest
    rw [List.length_append, List.length_cons] at hcalls
    obtain ⟨fewer, hfewer⟩ : ∃ fewer, calls - k = fewer + 1 := ⟨calls - k - 1, by omega⟩
    rw [lexed_append, List.append_assoc, lexed_cons, List.cons_append, ha calls (by omega) _ (hfactor _), he, hfewer]
    cases a.value f record with
    | error message => rfl
    | ok x =>
      have hstep : f.exprLoop record (fewer + 1) x (op.token f :: (lexed f w ++ rest)) =
          ((b.value f record).bind fun y => f.termLoop record (fewer - j) y rest).bind fun r =>
            f.exprLoop record fewer (g x r.1) r.2 := by
        rw [hop, hb fewer (by omega)]
      refine Eq.trans hstep ?_
      have hcount : calls - (k + 1) = fewer := by omega
      rw [hcount]
      cases b.value f record with
      | error message => rfl
      | ok y =>
        have hstop := termLoop_stop (f := f) record (show 1 ≤ fewer - j by omega) y hrest
        exact congrArg (fun r => Except.bind r fun r => f.exprLoop record fewer (g x r.1) r.2) hstop

theorem reads_of_prints (record : Json) {level : Level} {e : Expr} {w : List Lexeme} (h : Prints level e w) :
    Reads f record level e w := by
  induction h with
  | number raw =>
    refine ⟨Nat.le_refl 1, ?_⟩
    intro calls hcalls rest
    obtain ⟨calls, rfl⟩ := Nat.exists_eq_succ_of_ne_zero (Nat.one_le_iff_ne_zero.mp hcalls)
    rfl
  | field name =>
    refine ⟨Nat.le_refl 1, ?_⟩
    intro calls hcalls rest
    obtain ⟨calls, rfl⟩ := Nat.exists_eq_succ_of_ne_zero (Nat.one_le_iff_ne_zero.mp hcalls)
    rfl
  | @parens e w _ ih =>
    obtain ⟨k, hk, hkw, ih⟩ := ih
    refine ⟨?_, ?_⟩
    · rw [List.length_cons]
      omega
    · intro calls hcalls rest
      rw [List.length_cons, List.length_append, List.length_singleton] at hcalls
      obtain ⟨calls, rfl⟩ := Nat.exists_eq_succ_of_ne_zero (show calls ≠ 0 by omega)
      have hinner := ih calls (by omega) (.rParen :: rest) rfl
      rw [lexed_cons, lexed_append, List.cons_append, List.append_assoc]
      rw [show (Lexeme.lParen.token f) = Token.lParen from rfl, Arithmetic.parsePrimary,
        show lexed f [Lexeme.rParen] ++ rest = Token.rParen :: rest from rfl, hinner]
      cases e.value f record with
      | error message => rfl
      | ok x =>
        have hstop := exprLoop_stop (f := f) record (show 1 ≤ calls - k by omega) x
          (show startsTerm (Token.rParen :: rest) = false from rfl)
        exact congrArg (fun r => Except.bind r _) hstop
  | @primary e w h ih =>
    obtain ⟨hw, ih⟩ := ih
    refine ⟨hw, ?_⟩
    intro calls hcalls rest
    obtain ⟨calls, rfl⟩ := Nat.exists_eq_succ_of_ne_zero (show calls ≠ 0 by omega)
    rw [parseUnary_plain calls (startsTerm_primary h rest)]
    exact ih calls (by omega) rest
  | @neg e w _ ih =>
    obtain ⟨hw, ih⟩ := ih
    refine ⟨?_, ?_⟩
    · rw [List.length_cons]
      omega
    · intro calls hcalls rest
      rw [List.length_cons] at hcalls
      obtain ⟨calls, rfl⟩ := Nat.exists_eq_succ_of_ne_zero (show calls ≠ 0 by omega)
      rw [lexed_cons, List.cons_append, show (Lexeme.minus.token f) = Token.minus from rfl, Arithmetic.parseUnary,
        ih calls (by omega), Expr.value]
      cases e.value f record <;> rfl
  | @pos e w _ ih =>
    obtain ⟨hw, ih⟩ := ih
    refine ⟨?_, ?_⟩
    · rw [List.length_cons]
      omega
    · intro calls hcalls rest
      rw [List.length_cons] at hcalls
      obtain ⟨calls, rfl⟩ := Nat.exists_eq_succ_of_ne_zero (show calls ≠ 0 by omega)
      rw [lexed_cons, List.cons_append, show (Lexeme.plus.token f) = Token.plus from rfl, Arithmetic.parseUnary,
        ih calls (by omega), Expr.value]
  | @unary e w _ ih =>
    obtain ⟨hw, ih⟩ := ih
    refine ⟨1, Nat.le_refl 1, hw, ?_⟩
    intro calls hcalls rest
    obtain ⟨calls, rfl⟩ := Nat.exists_eq_succ_of_ne_zero (show calls ≠ 0 by omega)
    rw [Arithmetic.parseTerm, ih calls (by omega)]
    cases e.value f record <;> rfl
  | @mul a b v w _ _ iha ihb =>
    refine reads_factor (g := fun x y => .ok (f.mul x y)) ?_ ?_ iha ihb
    · rw [Expr.value]
      rfl
    · intro calls x rest
      rfl
  | @div a b v w _ _ iha ihb => exact reads_factor rfl (fun _ _ _ => rfl) iha ihb
  | @term e w _ ih =>
    obtain ⟨k, hk, hkw, ih⟩ := ih
    refine ⟨1, Nat.le_refl 1, by omega, ?_⟩
    intro calls hcalls rest hrest
    obtain ⟨calls, rfl⟩ := Nat.exists_eq_succ_of_ne_zero (show calls ≠ 0 by omega)
    rw [Arithmetic.parseExpr, ih calls (by omega)]
    cases e.value f record with
    | error message => rfl
    | ok x =>
      have hstop := termLoop_stop (f := f) record (show 1 ≤ calls - k by omega) x hrest
      exact congrArg (fun r => Except.bind r _) hstop
  | @add a b v w _ _ iha ihb => exact reads_summand rfl (fun _ => rfl) (fun _ _ _ => rfl) iha ihb
  | @sub a b v w _ _ iha ihb => exact reads_summand rfl (fun _ => rfl) (fun _ _ _ => rfl) iha ihb

/-! ### What is read is a printing -/

/-- The results of the parser with so many calls: a function of a level reads a printing of that
level, and a loop extends the printing it was given. -/
structure ReadsPrintings (f : Arithmetic F) (record : Json) (calls : ℕ) : Prop where
  expr : ∀ {ls r}, f.parseExpr record calls (lexed f ls) = .ok r →
    ∃ e w rest, ls = w ++ rest ∧ r.2 = lexed f rest ∧ Prints .expr e w
  exprLoop : ∀ {x ls r}, f.exprLoop record calls x (lexed f ls) = .ok r → ∀ {e w}, Prints .expr e w →
    ∃ e' w' rest, ls = w' ++ rest ∧ r.2 = lexed f rest ∧ Prints .expr e' (w ++ w')
  term : ∀ {ls r}, f.parseTerm record calls (lexed f ls) = .ok r →
    ∃ e w rest, ls = w ++ rest ∧ r.2 = lexed f rest ∧ Prints .term e w
  termLoop : ∀ {x ls r}, f.termLoop record calls x (lexed f ls) = .ok r → ∀ {e w}, Prints .term e w →
    ∃ e' w' rest, ls = w' ++ rest ∧ r.2 = lexed f rest ∧ Prints .term e' (w ++ w')
  unary : ∀ {ls r}, f.parseUnary record calls (lexed f ls) = .ok r →
    ∃ e w rest, ls = w ++ rest ∧ r.2 = lexed f rest ∧ Prints .unary e w
  primary : ∀ {ls r}, f.parsePrimary record calls (lexed f ls) = .ok r →
    ∃ e w rest, ls = w ++ rest ∧ r.2 = lexed f rest ∧ Prints .primary e w

section Steps

variable {record : Json} {calls : ℕ}

theorem loop_stays {level : Level} {e : Expr} {w ls : List Lexeme} {x : F} {r : F × List (Token F)}
    (h : Except.ok (x, lexed f ls) = (Except.ok r : Except String _)) (hp : Prints level e w) :
    ∃ e' w' rest, ls = w' ++ rest ∧ r.2 = lexed f rest ∧ Prints level e' (w ++ w') := by
  cases h
  refine ⟨e, [], ls, rfl, rfl, ?_⟩
  rw [List.append_nil]
  exact hp

theorem expr_step (ih : ReadsPrintings f record calls) {ls : List Lexeme} {r : F × List (Token F)}
    (h : f.parseExpr record (calls + 1) (lexed f ls) = .ok r) :
    ∃ e w rest, ls = w ++ rest ∧ r.2 = lexed f rest ∧ Prints .expr e w := by
  rw [Arithmetic.parseExpr] at h
  obtain ⟨t, ht, hloop⟩ := bind_ok h
  obtain ⟨a, v, rest, rfl, hrest, ha⟩ := ih.term ht
  rw [hrest] at hloop
  obtain ⟨e, w, rest, rfl, hr, he⟩ := ih.exprLoop hloop (.term ha)
  exact ⟨e, v ++ w, rest, (List.append_assoc v w rest).symm, hr, he⟩

theorem term_step (ih : ReadsPrintings f record calls) {ls : List Lexeme} {r : F × List (Token F)}
    (h : f.parseTerm record (calls + 1) (lexed f ls) = .ok r) :
    ∃ e w rest, ls = w ++ rest ∧ r.2 = lexed f rest ∧ Prints .term e w := by
  rw [Arithmetic.parseTerm] at h
  obtain ⟨t, ht, hloop⟩ := bind_ok h
  obtain ⟨a, v, rest, rfl, hrest, ha⟩ := ih.unary ht
  rw [hrest] at hloop
  obtain ⟨e, w, rest, rfl, hr, he⟩ := ih.termLoop hloop (.unary ha)
  exact ⟨e, v ++ w, rest, (List.append_assoc v w rest).symm, hr, he⟩

/-- A further operand of the loop of an expression, then the loop again. -/
theorem summand_step (ih : ReadsPrintings f record calls) {x : F → F} {ls v : List Lexeme} {r : F × List (Token F)}
    {op : Lexeme} {join : Expr → Expr}
    (h : ((f.parseTerm record calls (lexed f ls)).bind fun t => f.exprLoop record calls (x t.1) t.2) = .ok r)
    (hjoin : ∀ b w, Prints .term b w → Prints .expr (join b) (v ++ op :: w)) :
    ∃ e w rest, op :: ls = w ++ rest ∧ r.2 = lexed f rest ∧ Prints .expr e (v ++ w) := by
  obtain ⟨t, ht, hloop⟩ := bind_ok h
  obtain ⟨b, u, rest, rfl, hrest, hb⟩ := ih.term ht
  rw [hrest] at hloop
  obtain ⟨e, w, rest, rfl, hr, he⟩ := ih.exprLoop hloop (hjoin b u hb)
  refine ⟨e, op :: (u ++ w), rest, ?_, hr, ?_⟩
  · rw [List.cons_append, List.append_assoc]
  · rw [List.append_assoc, List.cons_append] at he
    exact he

theorem exprLoop_step (ih : ReadsPrintings f record calls) {x : F} {ls : List Lexeme} {r : F × List (Token F)}
    (h : f.exprLoop record (calls + 1) x (lexed f ls) = .ok r) {a : Expr} {v : List Lexeme} (ha : Prints .expr a v) :
    ∃ e w rest, ls = w ++ rest ∧ r.2 = lexed f rest ∧ Prints .expr e (v ++ w) := by
  cases ls with
  | nil => exact loop_stays h ha
  | cons l ls =>
    cases l with
    | plus => exact summand_step ih h fun b w hb => .add ha hb
    | minus => exact summand_step ih h fun b w hb => .sub ha hb
    | number raw => exact loop_stays h ha
    | ident name => exact loop_stays h ha
    | star => exact loop_stays h ha
    | slash => exact loop_stays h ha
    | lParen => exact loop_stays h ha
    | rParen => exact loop_stays h ha

/-- A further operand of the loop of a term, then the loop again. -/
theorem factor_step (ih : ReadsPrintings f record calls) {g : F → Except String F} {ls v : List Lexeme}
    {r : F × List (Token F)} {op : Lexeme} {join : Expr → Expr}
    (h : ((f.parseUnary record calls (lexed f ls)).bind fun t =>
      (g t.1).bind fun y => f.termLoop record calls y t.2) = .ok r)
    (hjoin : ∀ b w, Prints .unary b w → Prints .term (join b) (v ++ op :: w)) :
    ∃ e w rest, op :: ls = w ++ rest ∧ r.2 = lexed f rest ∧ Prints .term e (v ++ w) := by
  obtain ⟨t, ht, hloop⟩ := bind_ok h
  obtain ⟨y, _, hloop⟩ := bind_ok hloop
  obtain ⟨b, u, rest, rfl, hrest, hb⟩ := ih.unary ht
  rw [hrest] at hloop
  obtain ⟨e, w, rest, rfl, hr, he⟩ := ih.termLoop hloop (hjoin b u hb)
  refine ⟨e, op :: (u ++ w), rest, ?_, hr, ?_⟩
  · rw [List.cons_append, List.append_assoc]
  · rw [List.append_assoc, List.cons_append] at he
    exact he

theorem termLoop_step (ih : ReadsPrintings f record calls) {x : F} {ls : List Lexeme} {r : F × List (Token F)}
    (h : f.termLoop record (calls + 1) x (lexed f ls) = .ok r) {a : Expr} {v : List Lexeme} (ha : Prints .term a v) :
    ∃ e w rest, ls = w ++ rest ∧ r.2 = lexed f rest ∧ Prints .term e (v ++ w) := by
  cases ls with
  | nil => exact loop_stays h ha
  | cons l ls =>
    cases l with
    | star => exact factor_step (g := fun y => .ok (f.mul x y)) ih h fun b w hb => .mul ha hb
    | slash => exact factor_step (g := f.divide x) ih h fun b w hb => .div ha hb
    | number raw => exact loop_stays h ha
    | ident name => exact loop_stays h ha
    | plus => exact loop_stays h ha
    | minus => exact loop_stays h ha
    | lParen => exact loop_stays h ha
    | rParen => exact loop_stays h ha

theorem primary_step (ih : ReadsPrintings f record calls) {ls : List Lexeme} {r : F × List (Token F)}
    (h : f.parsePrimary record (calls + 1) (lexed f ls) = .ok r) :
    ∃ e w rest, ls = w ++ rest ∧ r.2 = lexed f rest ∧ Prints .primary e w := by
  cases ls with
  | nil => cases h
  | cons l ls =>
    cases l with
    | number raw =>
      cases h
      exact ⟨.number raw, [.number raw], ls, rfl, rfl, .number raw⟩
    | ident name =>
      obtain ⟨x, _, rfl⟩ := map_ok (show (f.field record name).map _ = .ok r from h)
      exact ⟨.field name, [.ident name], ls, rfl, rfl, .field name⟩
    | lParen =>
      rw [lexed_cons, show Lexeme.lParen.token f = Token.lParen from rfl, Arithmetic.parsePrimary] at h
      obtain ⟨t, ht, hloop⟩ := bind_ok h
      obtain ⟨e, w, rest, rfl, hrest, he⟩ := ih.expr ht
      rw [hrest] at hloop
      cases rest with
      | nil => cases hloop
      | cons l rest =>
        cases l with
        | rParen =>
          cases hloop
          refine ⟨e, .lParen :: (w ++ [.rParen]), rest, ?_, rfl, .parens he⟩
          rw [List.cons_append, List.append_assoc, List.singleton_append]
        | number raw => cases hloop
        | ident name => cases hloop
        | plus => cases hloop
        | minus => cases hloop
        | star => cases hloop
        | slash => cases hloop
        | lParen => cases hloop
    | plus => cases h
    | minus => cases h
    | star => cases h
    | slash => cases h
    | rParen => cases h

theorem unary_step (ih : ReadsPrintings f record calls) {ls : List Lexeme} {r : F × List (Token F)}
    (h : f.parseUnary record (calls + 1) (lexed f ls) = .ok r) :
    ∃ e w rest, ls = w ++ rest ∧ r.2 = lexed f rest ∧ Prints .unary e w := by
  by_cases hplain : startsTerm (lexed f ls) = false
  · rw [parseUnary_plain calls hplain] at h
    obtain ⟨e, w, rest, hls, hr, he⟩ := ih.primary h
    exact ⟨e, w, rest, hls, hr, .primary he⟩
  · cases ls with
    | nil => exact absurd rfl hplain
    | cons l ls =>
      cases l with
      | minus =>
        obtain ⟨t, ht, rfl⟩ := map_ok (show (f.parseUnary record calls (lexed f ls)).map _ = .ok r from h)
        obtain ⟨e, w, rest, rfl, hr, he⟩ := ih.unary ht
        exact ⟨.neg e, .minus :: w, rest, rfl, hr, .neg he⟩
      | plus =>
        obtain ⟨e, w, rest, rfl, hr, he⟩ := ih.unary (show f.parseUnary record calls (lexed f ls) = .ok r from h)
        exact ⟨.pos e, .plus :: w, rest, rfl, hr, .pos he⟩
      | number raw => exact absurd rfl hplain
      | ident name => exact absurd rfl hplain
      | star => exact absurd rfl hplain
      | slash => exact absurd rfl hplain
      | lParen => exact absurd rfl hplain
      | rParen => exact absurd rfl hplain

end Steps

theorem readsPrintings (record : Json) (calls : ℕ) : ReadsPrintings f record calls := by
  induction calls with
  | zero =>
    constructor
    case expr =>
      intro ls r h
      cases h
    case exprLoop =>
      intro x ls r h
      cases h
    case term =>
      intro ls r h
      cases h
    case termLoop =>
      intro x ls r h
      cases h
    case unary =>
      intro ls r h
      cases h
    case primary =>
      intro ls r h
      cases h
  | succ calls ih =>
    exact ⟨expr_step ih, exprLoop_step ih, term_step ih, termLoop_step ih, unary_step ih, primary_step ih⟩

/-! ### The bound on the calls -/

/-- Neither the bound was met nor, on success, are as many tokens left as there is room. -/
def Settles (x : Except String (F × List (Token F))) (room : ℕ) : Prop :=
  x ≠ .error "" ∧ ∀ r, x = .ok r → r.2.length < room

theorem settles_ok {r : F × List (Token F)} {room : ℕ} (h : r.2.length < room) : Settles (.ok r) room := by
  refine ⟨fun herror => ?_, fun s hs => ?_⟩
  · cases herror
  · cases hs
    exact h

theorem settles_error {message : String} {room : ℕ} (h : message ≠ "") :
    Settles (.error message : Except String (F × List (Token F))) room := by
  refine ⟨fun herror => ?_, fun s hs => ?_⟩
  · cases herror
    exact h rfl
  · cases hs

theorem settles_bind {x : Except String (F × List (Token F))} {g : F × List (Token F) → Except String (F × List (Token F))}
    {room least : ℕ} (hx : Settles x room) (hg : ∀ r, r.2.length < room → Settles (g r) least) :
    Settles (x.bind g) least := by
  cases x with
  | error message =>
    refine settles_error fun hempty => ?_
    rw [hempty] at hx
    exact hx.1 rfl
  | ok r => exact hg r (hx.2 r rfl)

theorem settles_mono {x : Except String (F × List (Token F))} {room least : ℕ} (h : Settles x least)
    (hle : least ≤ room) : Settles x room := ⟨h.1, fun r hr => Nat.lt_of_lt_of_le (h.2 r hr) hle⟩

/-- A text that begins with a fixed one is not empty. -/
theorem append_ne_empty {a b : String} (ha : a ≠ "") : a ++ b ≠ "" := by
  intro h
  exact ha (String.append_eq_empty_iff.mp h).1

theorem settles_field {record : Json} (name : List Char) (rest : List (Token F)) {room : ℕ} (h : rest.length < room) :
    Settles ((f.field record name).map fun value => (value, rest)) room := by
  unfold Arithmetic.field
  cases record.get (String.ofList name) with
  | none => exact settles_error (append_ne_empty (append_ne_empty (by decide)))
  | some value =>
    dsimp only
    cases f.asF64 value with
    | none => exact settles_error (append_ne_empty (append_ne_empty (by decide)))
    | some number => exact settles_ok h

structure SettlesWithin (f : Arithmetic F) (record : Json) (calls : ℕ) : Prop where
  expr : ∀ tokens, 4 * tokens.length + 4 ≤ calls → Settles (f.parseExpr record calls tokens) tokens.length
  exprLoop : ∀ x tokens, 4 * tokens.length + 4 ≤ calls →
    Settles (f.exprLoop record calls x tokens) (tokens.length + 1)
  term : ∀ tokens, 4 * tokens.length + 3 ≤ calls → Settles (f.parseTerm record calls tokens) tokens.length
  termLoop : ∀ x tokens, 4 * tokens.length + 3 ≤ calls →
    Settles (f.termLoop record calls x tokens) (tokens.length + 1)
  unary : ∀ tokens, 4 * tokens.length + 2 ≤ calls → Settles (f.parseUnary record calls tokens) tokens.length
  primary : ∀ tokens, 4 * tokens.length + 1 ≤ calls → Settles (f.parsePrimary record calls tokens) tokens.length

theorem exprLoop_settles {record : Json} {calls : ℕ} (ih : SettlesWithin f record calls) (x : F)
    (tokens : List (Token F)) (h : 4 * tokens.length + 4 ≤ calls + 1) :
    Settles (f.exprLoop record (calls + 1) x tokens) (tokens.length + 1) := by
  have hoperand : ∀ (g : F → F) (rest : List (Token F)), tokens.length = rest.length + 1 →
      Settles ((f.parseTerm record calls rest).bind fun r => f.exprLoop record calls (g r.1) r.2)
        (tokens.length + 1) := by
    intro g rest hrest
    refine settles_bind (ih.term rest (by omega)) ?_
    intro r hr
    exact settles_mono (ih.exprLoop (g r.1) r.2 (by omega)) (by omega)
  unfold Arithmetic.exprLoop
  split
  · exact hoperand _ _ rfl
  · exact hoperand _ _ rfl
  · exact settles_ok (Nat.lt_succ_self _)

theorem termLoop_settles {record : Json} {calls : ℕ} (ih : SettlesWithin f record calls) (x : F)
    (tokens : List (Token F)) (h : 4 * tokens.length + 3 ≤ calls + 1) :
    Settles (f.termLoop record (calls + 1) x tokens) (tokens.length + 1) := by
  have hoperand : ∀ (g : F → Except String F) (rest : List (Token F)), tokens.length = rest.length + 1 →
      (∀ y, g y ≠ .error "") →
      Settles ((f.parseUnary record calls rest).bind fun r =>
        (g r.1).bind fun z => f.termLoop record calls z r.2) (tokens.length + 1) := by
    intro g rest hrest hg
    refine settles_bind (ih.unary rest (by omega)) ?_
    intro r hr
    cases hz : g r.1 with
    | error message =>
      refine settles_error fun hempty => ?_
      rw [hempty] at hz
      exact hg r.1 hz
    | ok z => exact settles_mono (ih.termLoop z r.2 (by omega)) (by omega)
  unfold Arithmetic.termLoop
  split
  · refine hoperand (fun y => .ok (f.mul x y)) _ rfl fun y hy => ?_
    cases hy
  · refine hoperand (f.divide x) _ rfl fun y hy => ?_
    rw [Arithmetic.divide] at hy
    split at hy
    · exact absurd (Except.error.inj hy) (by decide)
    · cases hy
  · exact settles_ok (Nat.lt_succ_self _)

theorem unary_settles {record : Json} {calls : ℕ} (ih : SettlesWithin f record calls)
    (tokens : List (Token F)) (h : 4 * tokens.length + 2 ≤ calls + 1) :
    Settles (f.parseUnary record (calls + 1) tokens) tokens.length := by
  unfold Arithmetic.parseUnary
  split
  · rename_i rest
    rw [List.length_cons] at h ⊢
    have hrest := ih.unary rest (by omega)
    cases hrun : f.parseUnary record calls rest with
    | error message =>
      refine settles_error fun hempty => ?_
      rw [hrun, hempty] at hrest
      exact hrest.1 rfl
    | ok r => exact settles_ok (Nat.lt_succ_of_lt (hrest.2 r hrun))
  · rename_i rest
    rw [List.length_cons] at h ⊢
    exact settles_mono (ih.unary rest (by omega)) (Nat.le_succ _)
  · exact ih.primary tokens (by omega)

theorem primary_settles {record : Json} {calls : ℕ} (ih : SettlesWithin f record calls)
    (tokens : List (Token F)) (h : 4 * tokens.length + 1 ≤ calls + 1) :
    Settles (f.parsePrimary record (calls + 1) tokens) tokens.length := by
  unfold Arithmetic.parsePrimary
  split
  · exact settles_ok (Nat.lt_succ_self _)
  · exact settles_field _ _ (Nat.lt_succ_self _)
  · rename_i rest
    rw [List.length_cons] at h ⊢
    refine settles_bind (ih.expr rest (by omega)) ?_
    intro r hr
    split
    · rename_i after hafter
      rw [hafter, List.length_cons] at hr
      exact settles_ok (show after.length < rest.length + 1 by omega)
    · exact settles_error (by decide)
  · exact settles_error (append_ne_empty (by decide))

theorem settlesWithin (record : Json) (calls : ℕ) : SettlesWithin f record calls := by
  induction calls with
  | zero =>
    constructor
    all_goals
      intros
      omega
  | succ calls ih =>
    constructor
    case exprLoop => exact exprLoop_settles ih
    case termLoop => exact termLoop_settles ih
    case unary => exact unary_settles ih
    case primary => exact primary_settles ih
    case expr =>
      intro tokens h
      rw [Arithmetic.parseExpr]
      refine settles_bind (ih.term tokens (by omega)) ?_
      intro r hr
      exact settles_mono (ih.exprLoop r.1 r.2 (by omega)) hr
    case term =>
      intro tokens h
      rw [Arithmetic.parseTerm]
      refine settles_bind (ih.unary tokens (by omega)) ?_
      intro r hr
      exact settles_mono (ih.termLoop r.1 r.2 (by omega)) hr

/-- The bound of `evalExpr` on the nested calls is never met. -/
theorem parseExpr_settles (record : Json) (tokens : List (Token F)) :
    f.parseExpr record (4 * tokens.length + 4) tokens ≠ .error "" :=
  ((settlesWithin record _).expr tokens (Nat.le_refl _)).1

/-! ### Where a value is missing -/

/-- A tree with its subtrees. -/
def Expr.subtrees : Expr → List Expr
  | .number raw => [.number raw]
  | .field name => [.field name]
  | .neg e => .neg e :: e.subtrees
  | .pos e => .pos e :: e.subtrees
  | .add a b => .add a b :: (a.subtrees ++ b.subtrees)
  | .sub a b => .sub a b :: (a.subtrees ++ b.subtrees)
  | .mul a b => .mul a b :: (a.subtrees ++ b.subtrees)
  | .div a b => .div a b :: (a.subtrees ++ b.subtrees)

variable {record : Json}

/-- A field that is missing or not numeric, or a division by zero. -/
def Expr.Faulty (f : Arithmetic F) (record : Json) : Expr → Prop
  | .field name => (record.get (String.ofList name)).bind f.asF64 = none
  | .div _ b => ∃ y, b.value f record = .ok y ∧ f.isZero y = true
  | _ => False

def fails (x : Except String F) : Prop := ∃ message, x = .error message

theorem fails_map {x : Except String F} {g : F → F} : fails (x.map g) ↔ fails x := by
  cases x with
  | error message => exact ⟨fun _ => ⟨message, rfl⟩, fun _ => ⟨message, rfl⟩⟩
  | ok v =>
    constructor
    · rintro ⟨message, h⟩
      cases h
    · rintro ⟨message, h⟩
      cases h

theorem fails_both {x y : Except String F} {g : F → F → F} :
    fails (x.bind fun a => y.map fun b => g a b) ↔ fails x ∨ fails y := by
  cases x with
  | error message => exact ⟨fun _ => .inl ⟨message, rfl⟩, fun _ => ⟨message, rfl⟩⟩
  | ok a =>
    have h := fails_map (x := y) (g := g a)
    constructor
    · intro hfails
      exact .inr (h.mp hfails)
    · rintro (⟨message, hx⟩ | hy)
      · cases hx
      · exact h.mpr hy

/-- A tree of another kind is itself no fault. -/
theorem faulty_cons {s : Expr} {l : List Expr} (hs : s.Faulty f record = False) :
    (∃ t ∈ s :: l, t.Faulty f record) ↔ ∃ t ∈ l, t.Faulty f record := by
  constructor
  · rintro ⟨t, ht, hfaulty⟩
    rcases List.mem_cons.mp ht with rfl | ht
    · rw [hs] at hfaulty
      exact hfaulty.elim
    · exact ⟨t, ht, hfaulty⟩
  · rintro ⟨t, ht, hfaulty⟩
    exact ⟨t, List.mem_cons_of_mem s ht, hfaulty⟩

theorem faulty_append {l m : List Expr} :
    (∃ t ∈ l ++ m, t.Faulty f record) ↔ (∃ t ∈ l, t.Faulty f record) ∨ ∃ t ∈ m, t.Faulty f record := by
  constructor
  · rintro ⟨t, ht, hfaulty⟩
    rcases List.mem_append.mp ht with ht | ht
    · exact .inl ⟨t, ht, hfaulty⟩
    · exact .inr ⟨t, ht, hfaulty⟩
  · rintro (⟨t, ht, hfaulty⟩ | ⟨t, ht, hfaulty⟩)
    · exact ⟨t, List.mem_append_left m ht, hfaulty⟩
    · exact ⟨t, List.mem_append_right l ht, hfaulty⟩

theorem field_fails (name : List Char) : fails (f.field record name) ↔ (Expr.field name).Faulty f record := by
  unfold fails Arithmetic.field
  rw [Expr.Faulty]
  cases record.get (String.ofList name) with
  | none => simp
  | some value =>
    rw [Option.bind_some]
    dsimp only
    cases f.asF64 value <;> simp

theorem divide_fails (x y : F) : fails (f.divide x y) ↔ f.isZero y = true := by
  unfold fails Arithmetic.divide
  by_cases hzero : f.isZero y = true
  · simp [hzero]
  · simp [hzero]

/-- The value of a tree is missing exactly where some subtree is at fault. -/
theorem value_fails (e : Expr) : fails (e.value f record) ↔ ∃ s ∈ e.subtrees, s.Faulty f record := by
  induction e with
  | number raw =>
    rw [Expr.subtrees, faulty_cons rfl, Expr.value]
    simp [fails]
  | field name =>
    rw [Expr.value, field_fails]
    simp [Expr.subtrees]
  | neg e ih => rw [Expr.subtrees, faulty_cons rfl, Expr.value, fails_map, ih]
  | pos e ih => rw [Expr.subtrees, faulty_cons rfl, Expr.value, ih]
  | add a b iha ihb => rw [Expr.subtrees, faulty_cons rfl, faulty_append, Expr.value, fails_both, iha, ihb]
  | sub a b iha ihb => rw [Expr.subtrees, faulty_cons rfl, faulty_append, Expr.value, fails_both, iha, ihb]
  | mul a b iha ihb => rw [Expr.subtrees, faulty_cons rfl, faulty_append, Expr.value, fails_both, iha, ihb]
  | div a b iha ihb =>
    have hsplit : (∃ s ∈ (Expr.div a b).subtrees, s.Faulty f record) ↔
        (Expr.div a b).Faulty f record ∨ fails (a.value f record) ∨ fails (b.value f record) := by
      rw [iha, ihb, ← faulty_append, Expr.subtrees]
      simp only [List.exists_mem_cons_iff]
    rw [hsplit, Expr.value, Expr.Faulty]
    cases a.value f record with
    | error message => simp [fails, Except.bind]
    | ok x =>
      cases b.value f record with
      | error message => simp [fails, Except.bind]
      | ok y =>
        have hdivide := divide_fails (f := f) x y
        simp [Except.bind, hdivide]
        simp [fails]

/-! ### Evaluation -/

theorem evalExpr_of_sentence (hf : ParsesNumerals f) {text : List Char} {e : Expr} (h : Sentence text e) :
    f.evalExpr text record = e.value f record := by
  obtain ⟨w, hspells, hprints⟩ := h
  have htokens : f.tokenize text = .ok (lexed f w) := tokenizeFrom_spells hf hspells text.length (Nat.le_refl _)
  obtain ⟨k, hk, hkw, hreads⟩ := reads_of_prints (f := f) record hprints
  have hparse := hreads (4 * w.length + 4) (by omega) [] rfl
  rw [List.append_nil] at hparse
  have hrun : f.evalExpr text record = ((f.parseExpr record (4 * w.length + 4) (lexed f w)).bind fun r =>
      if r.2.isEmpty then .ok r.1 else .error "expresión incompleta o tokens sobrantes") := by
    rw [Arithmetic.evalExpr, htokens, ← lexed_length (f := f) w]
    rfl
  rw [hrun, hparse]
  cases e.value f record with
  | error message => rfl
  | ok x =>
    have hstop := exprLoop_stop (f := f) record (show 1 ≤ 4 * w.length + 4 - k by omega) x
      (show startsTerm ([] : List (Token F)) = false from rfl)
    exact congrArg (fun r => Except.bind r _) hstop

theorem sentence_of_evalExpr (hf : ParsesNumerals f) {text : List Char} {x : F} (h : f.evalExpr text record = .ok x) :
    ∃ e, Sentence text e := by
  obtain ⟨tokens, htokens, hrun⟩ := bind_ok h
  obtain ⟨ls, hspells, rfl⟩ := spells_of_tokenizeFrom hf (Nat.le_refl text.length) htokens
  obtain ⟨r, hr, hend⟩ := bind_ok hrun
  obtain ⟨e, w, rest, rfl, hrest, hprints⟩ := (readsPrintings record _).expr hr
  by_cases hempty : r.2.isEmpty = true
  · rw [hrest, lexed, List.isEmpty_map, List.isEmpty_iff] at hempty
    rw [hempty, List.append_nil] at hspells
    exact ⟨e, w, hspells, hprints⟩
  · rw [if_neg hempty] at hend
    cases hend

/-- A sentence gets the value of the tree that it prints, and fails exactly where the tree meets a
missing or non-numeric field or a division by zero; any other text is rejected. -/
theorem evalExpr_decides (hf : ParsesNumerals f) (text : List Char) (record : Json) :
    (∀ e, Sentence text e → f.evalExpr text record = e.value f record ∧
      (fails (f.evalExpr text record) ↔ ∃ s ∈ e.subtrees, s.Faulty f record)) ∧
    ((¬ ∃ e, Sentence text e) → fails (f.evalExpr text record)) := by
  constructor
  · intro e he
    have hvalue : f.evalExpr text record = e.value f record := evalExpr_of_sentence hf he
    refine ⟨hvalue, ?_⟩
    rw [hvalue]
    exact value_fails e
  · intro hnone
    cases hrun : f.evalExpr text record with
    | error message => exact ⟨message, rfl⟩
    | ok x => exact absurd (sentence_of_evalExpr hf hrun) hnone

/-- Whole numbers, with numerals read by their digits. -/
def wholeNumbers : Arithmetic ℤ where
  zero := 0
  one := 1
  add := (· + ·)
  sub := (· - ·)
  mul := (· * ·)
  div := Int.tdiv
  min := Min.min
  max := Max.max
  sqrt x := x
  neg := Neg.neg
  isZero x := x == 0
  ofCount n := n
  sort values := values
  ofNumber
    | .posInt n => some n
    | _ => none
  parse raw := if isNumeral raw then some (raw.foldl (fun n c => 10 * n + (c.toNat - 48 : ℕ)) 0) else none
  toNumber _ := none
  debug := toString

theorem wholeNumbers_parses : ParsesNumerals wholeNumbers := by
  intro raw _
  simp only [wholeNumbers]
  split <;> simp_all

/-- `8/(n-2)`. -/
def sampleTree : Expr := .div (.number ['8']) (.sub (.field ['n']) (.number ['2']))

/-- A numeral of one digit, ended by the next character. -/
theorem Spells.digit {c e : Char} {s : List Char} {w : List Lexeme} (hc : isNumeral [c] = true)
    (he : isNumberChar e = false) (h : Spells (e :: s) w) : Spells (c :: e :: s) (.number [c] :: w) := by
  refine Spells.number (s := e :: s) hc ?_ h
  intro d hd
  cases hd
  exact he

theorem sampleTree_sentence : Sentence ['8', '/', '(', 'n', '-', '2', ')'] sampleTree := by
  have hinner : Spells ['n', '-', '2', ')'] [.ident ['n'], .minus, .number ['2'], .rParen] := by
    refine Spells.ident (s := ['-', '2', ')']) (show isFieldName ['n'] = true by decide +kernel) ?_
      (.operator rfl (.digit (by decide +kernel) (by decide +kernel) (.operator rfl .nil)))
    intro d hd
    cases hd
    decide +kernel
  refine ⟨[.number ['8'], .slash, .lParen, .ident ['n'], .minus, .number ['2'], .rParen], ?_, ?_⟩
  · exact .digit (by decide +kernel) (by decide +kernel) (.operator rfl (.operator rfl hinner))
  · refine .term (.div (v := [.number ['8']]) (.unary (.primary (.number _))) (.primary ?_))
    refine .parens (w := [.ident ['n'], .minus, .number ['2']]) ?_
    exact .sub (v := [.ident ['n']]) (.term (.unary (.primary (.field _)))) (.unary (.primary (.number _)))

theorem evalExpr_decides_sample :
    wholeNumbers.evalExpr ['8', '/', '(', 'n', '-', '2', ')'] (.object [("n", .number (.posInt 6))]) = .ok 2 :=
  ((evalExpr_decides wholeNumbers_parses _ _).1 sampleTree sampleTree_sentence).1

end Jaiba.AiPrep
