import ProblemSolving.Json.Value

/-!
# Reading JSON

A document is read in two passes: characters to tokens, tokens to a value. The second pass keeps
the open arrays and objects on a stack, so no nesting is too deep for it.

* `Json.tokens?` : the tokens of a text.
* `Json.parse?` : the document of a text, if the text is one.
* `Json.double?`, `Json.nat?`, `Json.int?` : the values of numbers.
-/

namespace ProblemSolving

namespace Json

/-! ## Numbers -/

/-- The digits at the start of a text as a number with their count, and the rest. -/
def digits : List Char → (value count : Nat) → Nat × Nat × List Char
  | [], value, count => (value, count, [])
  | c :: rest, value, count =>
    if c.isDigit then digits rest (10 * value + (c.toNat - '0'.toNat)) (count + 1)
    else (value, count, c :: rest)

/-- A number as it is written: `coefficient * 10 ^ exponent` with a sign. -/
structure Literal where
  negative : Bool
  coefficient : Nat
  exponent : Int
  /-- Whether there is neither a fraction nor an exponent. -/
  whole : Bool

/-- Reads the exponent of a number, after its digits. -/
def exponentPart? (rest : List Char) : Option (Option Int) :=
  let power (sign : Int) (ds : List Char) : Option (Option Int) :=
    match digits ds 0 0 with
    | (_, 0, _) => none
    | (value, _, []) => some (some (sign * value))
    | _ => none
  match rest with
  | [] => some none
  | e :: rest =>
    if e = 'e' || e = 'E' then
      match rest with
      | '+' :: ds => power 1 ds
      | '-' :: ds => power (-1) ds
      | ds => power 1 ds
    else none

/-- The literal of a text: no leading zeros, and digits on both sides of a point. -/
def literal? (text : List Char) : Option Literal :=
  let (negative, body) := match text with
    | '-' :: rest => (true, rest)
    | rest => (false, rest)
  let (value, count, rest) := digits body 0 0
  if count = 0 || (count > 1 && body.head? == some '0') then none
  else
    let (value, places, rest) := match rest with
      | '.' :: ds => digits ds value 0
      | _ => (value, 0, rest)
    let pointed := text.contains '.'
    if pointed && places = 0 then none
    else (exponentPart? rest).map fun power =>
      ⟨negative, value, power.getD 0 - places, !pointed && power.isNone⟩

/-- The double of a number, if it does not exceed the greatest one. -/
def double? : Json → Option Double
  | .number text => do
    let l ← literal? text.toList
    let x := Double.ofDecimal l.negative l.coefficient l.exponent
    if x.isFinite then some x else none
  | _ => none

/-- The value of an unsigned whole number below `bound`. -/
def nat? (bound : Nat) : Json → Option Nat
  | .number text => do
    let l ← literal? text.toList
    if l.whole && !l.negative && l.coefficient < bound then some l.coefficient else none
  | _ => none

/-- The value of a whole number. -/
def int? : Json → Option Int
  | .number text => do
    let l ← literal? text.toList
    if l.whole then some (if l.negative then -l.coefficient else l.coefficient) else none
  | _ => none

/-! ## Tokens -/

inductive Token where
  | openArray
  | closeArray
  | openObject
  | closeObject
  | comma
  | colon
  /-- A string; `none` if it stands for no text. -/
  | text (value : Option String)
  /-- A value that is one word or number. -/
  | atom (value : Json)

/-- The value of a hexadecimal digit. -/
def hexDigit? (c : Char) : Option Nat :=
  if c.isDigit then some (c.toNat - '0'.toNat)
  else if 'a' ≤ c && c ≤ 'f' then some (c.toNat - 'a'.toNat + 10)
  else if 'A' ≤ c && c ≤ 'F' then some (c.toNat - 'A'.toNat + 10)
  else none

/-- The value of four hexadecimal digits. -/
def hexUnit? (a b c d : Char) : Option Nat := do
  return (← hexDigit? a) * 4096 + (← hexDigit? b) * 256 + (← hexDigit? c) * 16 + (← hexDigit? d)

/-- The character of an escape with a single letter. -/
def shortEscape? (letter : Char) : Option Char :=
  if letter = '"' || letter = '\\' || letter = '/' then some letter
  else if letter = 'n' then some '\n' else if letter = 'r' then some '\r'
  else if letter = 't' then some '\t' else if letter = 'b' then some '\x08'
  else if letter = 'f' then some '\x0c' else none

/-- The 16-bit units and characters of a string up to its closing quote, and the rest after the
quote. Escaped units stand as numbers, since two of them may make up one character. -/
def stringUnits? (cs : List Char) : Option (List Nat × { rest : List Char // rest.length < cs.length }) :=
  match cs with
  | [] => none
  | '"' :: rest => some ([], ⟨rest, by simp⟩)
  | '\\' :: 'u' :: a :: b :: c :: d :: rest => do
    let unit ← hexUnit? a b c d
    let (units, ⟨rest', h⟩) ← stringUnits? rest
    return (unit :: units, ⟨rest', by simp only [List.length_cons]; omega⟩)
  | '\\' :: letter :: rest => do
    let c ← shortEscape? letter
    let (units, ⟨rest', h⟩) ← stringUnits? rest
    return (c.toNat :: units, ⟨rest', by simp only [List.length_cons]; omega⟩)
  | c :: rest =>
    if c.toNat < 0x20 || c = '\\' then none
    else do
      let (units, ⟨rest', h⟩) ← stringUnits? rest
      return (c.toNat :: units, ⟨rest', by simp only [List.length_cons]; omega⟩)

/-- The characters of units: a high surrogate joins with the low one after it, and any other
surrogate makes the string stand for no text. -/
def joinSurrogates? : List Nat → Option (List Char)
  | [] => some []
  | [unit] => if 0xD800 ≤ unit && unit < 0xE000 then none else some [Char.ofNat unit]
  | unit :: next :: rest =>
    if 0xD800 ≤ unit && unit < 0xDC00 then
      if 0xDC00 ≤ next && next < 0xE000 then
        (joinSurrogates? rest).map
          (Char.ofNat (0x10000 + (unit - 0xD800) * 1024 + (next - 0xDC00)) :: ·)
      else none
    else if 0xDC00 ≤ unit && unit < 0xE000 then none
    else (joinSurrogates? (next :: rest)).map (Char.ofNat unit :: ·)

def isBlank (c : Char) : Bool := c = ' ' || c = '\n' || c = '\t' || c = '\r'

/-- The characters of words and numbers. -/
def isAtomChar (c : Char) : Bool := c.isAlphanum || c = '-' || c = '+' || c = '.'

/-- The value of a word or number. -/
def atom? (cs : List Char) : Option Json :=
  match String.ofList cs with
  | "null" => some .null
  | "true" => some (.bool true)
  | "false" => some (.bool false)
  | text => (literal? cs).map fun _ => .number text

/-- The sign that a punctuation character is. -/
def punctuation? (c : Char) : Option Token :=
  if c = '[' then some .openArray else if c = ']' then some .closeArray
  else if c = '{' then some .openObject else if c = '}' then some .closeObject
  else if c = ',' then some .comma else if c = ':' then some .colon
  else none

/-- The tokens of a text. -/
def tokens? (cs : List Char) : Option (List Token) :=
  match _h : cs with
  | [] => some []
  | c :: rest =>
    if isBlank c then tokens? rest
    else if c = '"' then do
      let (units, ⟨rest', _⟩) ← stringUnits? rest
      return .text ((joinSurrogates? units).map String.ofList) :: (← tokens? rest')
    else match punctuation? c with
      | some token => (tokens? rest).map (token :: ·)
      | none =>
        if isAtomChar c then do
          let value ← atom? (c :: rest.takeWhile isAtomChar)
          return .atom value :: (← tokens? (rest.dropWhile isAtomChar))
        else none
termination_by cs.length
decreasing_by
  all_goals simp only [List.length_cons]
  all_goals first
    | omega
    | exact Nat.lt_succ_of_le ((List.dropWhile_sublist _).length_le)

/-! ## Values -/

/-- An array or object that is still open, with what it holds so far, latest first. -/
inductive Open where
  | array (items : List Json)
  /-- An object whose next value has this key; `sound` is false once a key stood for no text. -/
  | object (members : List (String × Json)) (key : String) (sound : Bool)

/-- What may come next. -/
inductive Expect where
  /-- A value, or the end of an array that is still empty. -/
  | value (orClose : Bool)
  /-- A key, or the end of an object that is still empty. -/
  | key (orClose : Bool)
  | colon
  /-- A comma, or the end of what is open. -/
  | separator

/-- The state between two tokens: what is open, innermost first, and what may come next; a
document that is complete has its value. -/
inductive Reading where
  | within (stack : List Open) (expect : Expect)
  | done (value : Json)

/-- The state after a complete value. -/
def Reading.complete (value : Json) : List Open → Reading
  | [] => .done value
  | .array items :: rest => .within (.array (value :: items) :: rest) .separator
  | .object members key sound :: rest =>
    .within (.object ((key, value) :: members) key sound :: rest) .separator

/-- The state after a closed array or object. -/
def Reading.close : List Open → Option Reading
  | [] => none
  | .array items :: rest => some (.complete (.array items.reverse) rest)
  | .object members _ sound :: rest =>
    some (.complete (if sound then .object members.reverse else .unpaired) rest)

/-- The state after one more token. -/
def Reading.next? : Reading → Token → Option Reading
  | .done _, _ => none
  | .within stack (.value orClose), token =>
    match token with
    | .atom value => some (.complete value stack)
    | .text value => some (.complete (match value with | some s => .string s | none => .unpaired) stack)
    | .openArray => some (.within (.array [] :: stack) (.value true))
    | .openObject => some (.within (.object [] "" true :: stack) (.key true))
    | .closeArray => if orClose then close stack else none
    | _ => none
  | .within stack (.key orClose), token =>
    match token, stack with
    | .text (some key), .object members _ sound :: rest =>
      some (.within (.object members key sound :: rest) .colon)
    | .text none, .object members _ _ :: rest =>
      some (.within (.object members "" false :: rest) .colon)
    | .closeObject, _ => if orClose then close stack else none
    | _, _ => none
  | .within stack .colon, token =>
    match token with
    | .colon => some (.within stack (.value false))
    | _ => none
  | .within stack .separator, token =>
    match token, stack with
    | .comma, .array _ :: _ => some (.within stack (.value false))
    | .comma, .object .. :: _ => some (.within stack (.key false))
    | .closeArray, .array _ :: _ => close stack
    | .closeObject, .object .. :: _ => close stack
    | _, _ => none

/-- The document of a text: one value, with nothing but blanks around it. -/
def parse? (text : String) : Option Json := do
  let tokens ← tokens? text.toList
  match ← tokens.foldlM Reading.next? (.within [] (.value false)) with
  | .done value => some value
  | .within .. => none

end Json

end ProblemSolving
