import ProblemSolving.Text.Printable

/-!
# Quoted text

* `Quoting` : how one format escapes characters inside double quotes.
* `Quoting.quote` : a text in quotes.
* `Quoting.json`, `Quoting.names` : the two formats in use.
* `listed` : items in square brackets.
-/

namespace ProblemSolving

/-- How a format escapes characters inside double quotes. -/
structure Quoting where
  /-- The letter that follows a backslash, for characters with a short escape. -/
  short? : Char → Option Char
  /-- Which of the other characters are written by their code. -/
  byCode : Char → Bool
  /-- The escape of a code point. -/
  code : Nat → String

namespace Quoting

/-- A character as it stands between the quotes. -/
def escape (q : Quoting) (c : Char) : String :=
  match q.short? c with
  | some letter => String.ofList ['\\', letter]
  | none => if q.byCode c then q.code c.toNat else String.singleton c

/-- A text in double quotes. -/
def quote (q : Quoting) (text : String) : String :=
  "\"" ++ String.join (text.toList.map q.escape) ++ "\""

/-- The hexadecimal digits of a number, in lower case. -/
def hex (n : Nat) : String := String.ofList (Nat.toDigits 16 n)

/-- Quoting in JSON documents: only quotes, backslashes and controls are escaped. -/
def json : Quoting where
  short? c :=
    if c = '"' then some '"' else if c = '\\' then some '\\'
    else if c = '\n' then some 'n' else if c = '\r' then some 'r' else if c = '\t' then some 't'
    else if c = '\x08' then some 'b' else if c = '\x0c' then some 'f' else none
  byCode c := c.toNat < 0x20
  code n := "\\u" ++ "".pushn '0' (4 - (hex n).length) ++ hex n

/-- Quoting of names in messages: everything without a shape of its own is written by its
code. -/
def names : Quoting where
  short? c :=
    if c = '"' then some '"' else if c = '\\' then some '\\'
    else if c = '\n' then some 'n' else if c = '\r' then some 'r' else if c = '\t' then some 't'
    else if c = '\x00' then some '0' else none
  byCode := unprintable
  code n := "\\u\x7b" ++ hex n ++ "\x7d"

end Quoting

/-- A name as messages quote it. -/
def quotedName (name : String) : String := Quoting.names.quote name

/-- Items in square brackets. -/
def listed (items : List String) : String := "[" ++ ", ".intercalate items ++ "]"

end ProblemSolving
