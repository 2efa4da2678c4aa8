import Mathlib.Algebra.Order.Ring.Int
import Mathlib.Data.List.Basic
import Mathlib.Data.Int.Notation

/-!
# JSON values (`serde_json::Value`)

Numbers keep the three cases of `serde_json::Number`; a float is carried by its
printed text, since nothing here computes with it. Objects are key-sorted maps
(`serde_json` is built without `preserve_order`).
-/

namespace Jaiba

inductive Number where
  | posInt (n : ℕ)
  | negInt (n : ℤ)
  | float (text : String)
  deriving Repr, DecidableEq

inductive Json where
  | null
  | bool (b : Bool)
  | number (n : Number)
  | string (s : String)
  | array (items : List Json)
  | object (fields : List (String × Json))
  deriving Repr

def Number.render : Number → String
  | .posInt n => toString n
  | .negInt n => toString n
  | .float text => text

namespace Json

/-- `Value::get(key)`: the member of an object, nothing for other values. -/
def get (key : String) : Json → Option Json
  | .object fields => fields.lookup key
  | _ => none

def hexDigit (n : ℕ) : Char := if n < 10 then Char.ofNat (48 + n) else Char.ofNat (87 + n)

/-- `serde_json`'s escapes inside a string. -/
def escapeChar (c : Char) : String :=
  if c = '"' then "\\\""
  else if c = '\\' then "\\\\"
  else if c.toNat = 8 then "\\b"
  else if c.toNat = 9 then "\\t"
  else if c.toNat = 10 then "\\n"
  else if c.toNat = 12 then "\\f"
  else if c.toNat = 13 then "\\r"
  else if c.toNat < 32 then
    "\\u00" ++ String.singleton (hexDigit (c.toNat / 16)) ++
      String.singleton (hexDigit (c.toNat % 16))
  else String.singleton c

def quote (s : String) : String := "\"" ++ String.join (s.toList.map escapeChar) ++ "\""

mutual

/-- `Value::to_string`: compact JSON text. -/
def render : Json → String
  | .null => "null"
  | .bool true => "true"
  | .bool false => "false"
  | .number n => Number.render n
  | .string s => quote s
  | .array items => "[" ++ renderItems items ++ "]"
  | .object fields => "\x7b" ++ renderFields fields ++ "\x7d"

def renderItems : List Json → String
  | [] => ""
  | [v] => render v
  | v :: rest => render v ++ "," ++ renderItems rest

def renderFields : List (String × Json) → String
  | [] => ""
  | [(k, v)] => quote k ++ ":" ++ render v
  | (k, v) :: rest => quote k ++ ":" ++ render v ++ "," ++ renderFields rest

end

def indent (depth : ℕ) : String := String.join (List.replicate depth "  ")

mutual

/-- The text of the pretty formatter, at a depth. -/
def pretty (depth : ℕ) : Json → String
  | .array items =>
    if items.isEmpty then "[]"
    else "[\n" ++ prettyItems (depth + 1) items ++ "\n" ++ indent depth ++ "]"
  | .object fields =>
    if fields.isEmpty then "\x7b\x7d"
    else "\x7b\n" ++ prettyFields (depth + 1) fields ++ "\n" ++ indent depth ++ "\x7d"
  | .null => "null"
  | .bool true => "true"
  | .bool false => "false"
  | .number n => Number.render n
  | .string s => quote s

def prettyItems (depth : ℕ) : List Json → String
  | [] => ""
  | [v] => indent depth ++ pretty depth v
  | v :: rest => indent depth ++ pretty depth v ++ ",\n" ++ prettyItems depth rest

def prettyFields (depth : ℕ) : List (String × Json) → String
  | [] => ""
  | [(k, v)] => indent depth ++ quote k ++ ": " ++ pretty depth v
  | (k, v) :: rest =>
    indent depth ++ quote k ++ ": " ++ pretty depth v ++ ",\n" ++ prettyFields depth rest

end

example : render (.object [("a", .array [.null, .string "x\ny"]), ("b", .bool true)]) =
    "\x7b\"a\":[null,\"x\\ny\"],\"b\":true\x7d" := by decide

end Json

end Jaiba
