import Jaiba.Lib.Regex
import Jaiba.Server.SqlBuilder

/-!
# Redaction of messages (`jaiba-connection-manager/src/redact.rs`)

The three patterns of `redact_sensitive`, ignoring case, and their replacement
one after another. `\w` is a parameter: the letters, marks, digits and
connectors of Unicode.
-/

namespace Jaiba.Connections.Redact
open Jaiba.Lib

abbrev Text := List Char

/-- Simple case folding on the letters of the patterns; `ſ` and the Kelvin sign fold to `s` and `k`. -/
def fold (c : Char) : Char :=
  if c.isUpper then c.toLower else if c = '\u017f' then 's' else if c = '\u212a' then 'k' else c

/-- `\s`. -/
def isSpace (c : Char) : Bool := Server.SqlBuilder.isWhitespace c

/-- `(?i)[a-z]`. -/
def isLetter (c : Char) : Bool := (fold c).isLower

/-- `(?i)[a-z0-9+.-]`. -/
def isSchemeChar (c : Char) : Bool := isLetter c || c.isDigit || c = '+' || c = '.' || c = '-'

/-- `[^:/?#\s]`. -/
def isUserChar (c : Char) : Bool := !(c = ':' || c = '/' || c = '?' || c = '#' || isSpace c)

/-- `[^@/\s]`, also written `[^@\s/]`. -/
def isPasswordChar (c : Char) : Bool := !(c = '@' || c = '/' || isSpace c)

/-- `[^\s,&;]`. -/
def isValueChar (c : Char) : Bool := !(isSpace c || c = ',' || c = '&' || c = ';')

/-- `[=:]`. -/
def isAssign (c : Char) : Bool := c = '=' || c = ':'

def char (d : Char) : Regex Char := .one fun c => c = d

/-- A word of the patterns, in any case. -/
def word (w : String) : Regex Char := Regex.word (w.toList.map fun d c => fold c = d)

/-- `([a-z][a-z0-9+.-]*://[^:/?#\s]+:)[^@/\s]+@`, to `$1***@`. -/
def urlRule : Regex.Rule Char where
  starts _ _ := true
  kept := .seq (.one isLetter) (.seq (.many isSchemeChar) (.seq (char ':') (.seq (char '/') (.seq (char '/')
    (.seq (.plus isUserChar) (char ':'))))))
  masked := .seq (.plus isPasswordChar) (char '@')
  replacement := ['*', '*', '*', '@']

/-- `password|passwd|pwd|pass|secret|token|api[_-]?key`. -/
def keyword : Regex Char :=
  .alt (word "password") (.alt (word "passwd") (.alt (word "pwd") (.alt (word "pass") (.alt (word "secret")
    (.alt (word "token") (.seq (word "api") (.seq (.opt (.one fun c => c = '_' || c = '-')) (word "key"))))))))

/-- `((?:...)\s*[=:]\s*)([^\s,&;]+)`, to `$1***`. -/
def pairRule : Regex.Rule Char where
  starts _ _ := true
  kept := .seq keyword (.seq (.many isSpace) (.seq (.one isAssign) (.many isSpace)))
  masked := .plus isValueChar
  replacement := ['*', '*', '*']

/-- `(\b[\w.%+-]+:)[^@\s/]+@`, to `$1***@`. -/
def userinfoRule (isWord : Char → Bool) : Regex.Rule Char where
  starts before text := before.any isWord != text.head?.any isWord
  kept := .seq (.plus fun c => isWord c || c = '.' || c = '%' || c = '+' || c = '-') (char ':')
  masked := .seq (.plus isPasswordChar) (char '@')
  replacement := ['*', '*', '*', '@']

def redactSensitive (isWord : Char → Bool) (input : Text) : Text :=
  (userinfoRule isWord).replaceAll (pairRule.replaceAll (urlRule.replaceAll input))

end Jaiba.Connections.Redact
