import Mathlib.Data.List.TakeWhile
import Jaiba.AiPrep.Support

/-!
# Expressions of computed fields (`eval_expr` in `ai_prep/support.rs`)

The tokeniser and the recursive descent that evaluates while it parses, and the
grammar with its reference value. The arithmetic is a parameter.
-/

namespace Jaiba.AiPrep
open Jaiba.Lib

/-- What the evaluator needs of `f64` besides: `-x` and the derived `Debug` text. -/
structure Arithmetic (F : Type) extends Floats F where
  neg : F → F
  debug : F → String

inductive Token (F : Type) where
  | number (value : F)
  | ident (name : List Char)
  | plus | minus | star | slash | lParen | rParen

/-! ### Tokens -/

def isBlank (c : Char) : Bool := c = ' ' || c = '\t' || c = '\n' || c = '\r'

/-- `'0'..='9' | '.'`. -/
def isNumberChar (c : Char) : Bool := c.isDigit || c = '.'

/-- `'a'..='z' | 'A'..='Z' | '_'`. -/
def isIdentStart (c : Char) : Bool := c.isAlpha || c = '_'

def isIdentChar (c : Char) : Bool := c.isAlphanum || c = '_' || c = '.'

def operator? {F : Type} : Char → Option (Token F)
  | '+' => some .plus
  | '-' => some .minus
  | '*' => some .star
  | '/' => some .slash
  | '(' => some .lParen
  | ')' => some .rParen
  | _ => none

namespace Arithmetic

variable {F : Type} (f : Arithmetic F)

/-- The loop of `tokenize`; every round takes a character, so as many rounds as there are
characters are enough. -/
def tokenizeFrom : ℕ → List Char → Except String (List (Token F))
  | _, [] => .ok []
  | 0, _ :: _ => .ok []
  | rounds + 1, c :: cs =>
    if isBlank c then tokenizeFrom rounds cs
    else match operator? c with
      | some token => (tokenizeFrom rounds cs).map (token :: ·)
      | none =>
        if isNumberChar c then
          let raw := c :: cs.takeWhile isNumberChar
          match f.parse raw with
          | none => .error ("número inválido '" ++ String.ofList raw ++ "'")
          | some number => (tokenizeFrom rounds (cs.dropWhile isNumberChar)).map (.number number :: ·)
        else if isIdentStart c then
          (tokenizeFrom rounds (cs.dropWhile isIdentChar)).map (.ident (c :: cs.takeWhile isIdentChar) :: ·)
        else .error ("carácter inesperado '" ++ String.singleton c ++ "'")

def tokenize (input : List Char) : Except String (List (Token F)) := f.tokenizeFrom input.length input

/-! ### The parser -/

/-- `{:?}` of the token at the index. -/
def debugToken : Option (Token F) → String
  | none => "None"
  | some (.number value) => "Some(Number(" ++ f.debug value ++ "))"
  | some (.ident name) => "Some(Ident(\"" ++ String.ofList name ++ "\"))"
  | some .plus => "Some(Plus)"
  | some .minus => "Some(Minus)"
  | some .star => "Some(Star)"
  | some .slash => "Some(Slash)"
  | some .lParen => "Some(LParen)"
  | some .rParen => "Some(RParen)"

/-- The value of a field of the record. -/
def field (record : Json) (name : List Char) : Except String F :=
  match record.get (String.ofList name) with
  | none => .error ("campo desconocido '" ++ String.ofList name ++ "'")
  | some value => match f.asF64 value with
    | none => .error ("campo '" ++ String.ofList name ++ "' no es numérico")
    | some number => .ok number

/-- `value /= rhs`. -/
def divide (value rhs : F) : Except String F :=
  if f.isZero rhs then .error "división por cero" else .ok (f.div value rhs)

mutual

/-- `parse_expr` on the tokens from the index on; the number bounds the nested calls. -/
def parseExpr (record : Json) : ℕ → List (Token F) → Except String (F × List (Token F))
  | 0, _ => .error ""
  | calls + 1, tokens => (parseTerm record calls tokens).bind fun r => exprLoop record calls r.1 r.2

def exprLoop (record : Json) : ℕ → F → List (Token F) → Except String (F × List (Token F))
  | 0, _, _ => .error ""
  | calls + 1, value, tokens =>
    match tokens with
    | .plus :: rest => (parseTerm record calls rest).bind fun r => exprLoop record calls (f.add value r.1) r.2
    | .minus :: rest => (parseTerm record calls rest).bind fun r => exprLoop record calls (f.sub value r.1) r.2
    | _ => .ok (value, tokens)

def parseTerm (record : Json) : ℕ → List (Token F) → Except String (F × List (Token F))
  | 0, _ => .error ""
  | calls + 1, tokens => (parseUnary record calls tokens).bind fun r => termLoop record calls r.1 r.2

def termLoop (record : Json) : ℕ → F → List (Token F) → Except String (F × List (Token F))
  | 0, _, _ => .error ""
  | calls + 1, value, tokens =>
    match tokens with
    | .star :: rest => (parseUnary record calls rest).bind fun r => termLoop record calls (f.mul value r.1) r.2
    | .slash :: rest => (parseUnary record calls rest).bind fun r =>
        (f.divide value r.1).bind fun quotient => termLoop record calls quotient r.2
    | _ => .ok (value, tokens)

def parseUnary (record : Json) : ℕ → List (Token F) → Except String (F × List (Token F))
  | 0, _ => .error ""
  | calls + 1, tokens =>
    match tokens with
    | .minus :: rest => (parseUnary record calls rest).map fun r => (f.neg r.1, r.2)
    | .plus :: rest => parseUnary record calls rest
    | _ => parsePrimary record calls tokens

def parsePrimary (record : Json) : ℕ → List (Token F) → Except String (F × List (Token F))
  | 0, _ => .error ""
  | calls + 1, tokens =>
    match tokens with
    | .number number :: rest => .ok (number, rest)
    | .ident name :: rest => (f.field record name).map fun value => (value, rest)
    | .lParen :: rest => (parseExpr record calls rest).bind fun r =>
        match r.2 with
        | .rParen :: rest => .ok (r.1, rest)
        | _ => .error "se esperaba ')'"
    | other => .error ("token inesperado " ++ f.debugToken other.head?)

end

/-- `eval_expr`. -/
def evalExpr (expr : List Char) (record : Json) : Except String F :=
  (f.tokenize expr).bind fun tokens =>
    (f.parseExpr record (4 * tokens.length + 4) tokens).bind fun r =>
      if r.2.isEmpty then .ok r.1 else .error "expresión incompleta o tokens sobrantes"

end Arithmetic

/-! ### The grammar -/

inductive Expr where
  | number (raw : List Char)
  | field (name : List Char)
  | neg (e : Expr)
  | pos (e : Expr)
  | add (a b : Expr)
  | sub (a b : Expr)
  | mul (a b : Expr)
  | div (a b : Expr)

/-- The value of a tree, from left to right; an operation fails where an operand does. -/
def Expr.value {F : Type} (f : Arithmetic F) (record : Json) : Expr → Except String F
  | .number raw => .ok ((f.parse raw).getD f.zero)
  | .field name => f.field record name
  | .neg e => (e.value f record).map f.neg
  | .pos e => e.value f record
  | .add a b => (a.value f record).bind fun x => (b.value f record).map fun y => f.add x y
  | .sub a b => (a.value f record).bind fun x => (b.value f record).map fun y => f.sub x y
  | .mul a b => (a.value f record).bind fun x => (b.value f record).map fun y => f.mul x y
  | .div a b => (a.value f record).bind fun x => (b.value f record).bind fun y => f.divide x y

inductive Lexeme where
  | number (raw : List Char)
  | ident (name : List Char)
  | plus | minus | star | slash | lParen | rParen

inductive Level where
  | expr | term | unary | primary

/-- `Prints level e w`: the lexemes `w` are a printing of the tree `e` with the precedence and the
left associativity of the operators; parentheses may be added anywhere. -/
inductive Prints : Level → Expr → List Lexeme → Prop where
  | number (raw : List Char) : Prints .primary (.number raw) [.number raw]
  | field (name : List Char) : Prints .primary (.field name) [.ident name]
  | parens {e : Expr} {w : List Lexeme} (h : Prints .expr e w) : Prints .primary e (.lParen :: (w ++ [.rParen]))
  | primary {e : Expr} {w : List Lexeme} (h : Prints .primary e w) : Prints .unary e w
  | neg {e : Expr} {w : List Lexeme} (h : Prints .unary e w) : Prints .unary (.neg e) (.minus :: w)
  | pos {e : Expr} {w : List Lexeme} (h : Prints .unary e w) : Prints .unary (.pos e) (.plus :: w)
  | unary {e : Expr} {w : List Lexeme} (h : Prints .unary e w) : Prints .term e w
  | mul {a b : Expr} {v w : List Lexeme} (ha : Prints .term a v) (hb : Prints .unary b w) :
      Prints .term (.mul a b) (v ++ .star :: w)
  | div {a b : Expr} {v w : List Lexeme} (ha : Prints .term a v) (hb : Prints .unary b w) :
      Prints .term (.div a b) (v ++ .slash :: w)
  | term {e : Expr} {w : List Lexeme} (h : Prints .term e w) : Prints .expr e w
  | add {a b : Expr} {v w : List Lexeme} (ha : Prints .expr a v) (hb : Prints .term b w) :
      Prints .expr (.add a b) (v ++ .plus :: w)
  | sub {a b : Expr} {v w : List Lexeme} (ha : Prints .expr a v) (hb : Prints .term b w) :
      Prints .expr (.sub a b) (v ++ .minus :: w)

/-- Digits and at most one dot. -/
def isNumeral (raw : List Char) : Bool :=
  raw.all isNumberChar && raw.any Char.isDigit && decide (raw.count '.' ≤ 1)

def isFieldName : List Char → Bool
  | [] => false
  | c :: cs => isIdentStart c && cs.all isIdentChar

def Lexeme.operator? : Char → Option Lexeme
  | '+' => some .plus
  | '-' => some .minus
  | '*' => some .star
  | '/' => some .slash
  | '(' => some .lParen
  | ')' => some .rParen
  | _ => none

/-- `Spells s w`: the text `s` is the lexemes `w` with any blanks between them; a numeral or a name
ends where no character continues it. -/
inductive Spells : List Char → List Lexeme → Prop where
  | nil : Spells [] []
  | blank {c : Char} {s : List Char} {w : List Lexeme} (hc : isBlank c = true) (h : Spells s w) : Spells (c :: s) w
  | operator {c : Char} {l : Lexeme} {s : List Char} {w : List Lexeme} (hc : Lexeme.operator? c = some l)
      (h : Spells s w) : Spells (c :: s) (l :: w)
  | number {raw s : List Char} {w : List Lexeme} (hraw : isNumeral raw = true)
      (hend : ∀ c ∈ s.head?, isNumberChar c = false) (h : Spells s w) : Spells (raw ++ s) (.number raw :: w)
  | ident {name s : List Char} {w : List Lexeme} (hname : isFieldName name = true)
      (hend : ∀ c ∈ s.head?, isIdentChar c = false) (h : Spells s w) : Spells (name ++ s) (.ident name :: w)

/-- A sentence of the grammar and the tree that it prints. -/
def Sentence (text : List Char) (e : Expr) : Prop := ∃ w, Spells text w ∧ Prints .expr e w

end Jaiba.AiPrep
