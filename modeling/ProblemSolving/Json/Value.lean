import ProblemSolving.Number.Decimal
import ProblemSolving.Text.Quoted

/-!
# JSON values

* `Json` : a document. Numbers keep the text they are written with, members keep their order and
  their repetitions.
* `Json.compact`, `Json.pretty` : the two layouts of a document.
* `Json.ofDouble`, `Json.ofNat` : documents of numbers.
-/

namespace ProblemSolving

inductive Json where
  | null
  | bool (b : Bool)
  /-- A number, by its text. -/
  | number (literal : String)
  | string (text : String)
  /-- A string, or an object with a key, that escapes half of a surrogate pair and so stands for
  no text. -/
  | unpaired
  | array (items : List Json)
  | object (members : List (String × Json))

namespace Json

instance : Inhabited Json := ⟨.null⟩

/-- Numbers in documents show their fraction, have an exponent from `10 ^ 16` up and below
`10 ^ -5`, and a half between two shortest texts goes to the even digit. -/
def numberLayout : Layout := ⟨.toEven, fun leading => -5 ≤ leading && leading < 16, true⟩

def ofNat (n : Nat) : Json := .number (toString n)

/-- A double as a number; documents have none for infinities and undefined values. -/
def ofDouble (x : Double) : Json :=
  if x.isFinite then .number (x.text numberLayout) else .null

/-- An optional value, `null` when it is missing. -/
def ofOption {α : Type} (toJson : α → Json) : Option α → Json
  | none => .null
  | some a => toJson a

/-- A list of values. -/
def ofList {α : Type} (toJson : α → Json) (items : List α) : Json :=
  .array (items.map toJson)

/-- The value of a member, the first one where several have the key. -/
def get? (key : String) : Json → Option Json
  | .object members => (members.find? (·.1 == key)).map (·.2)
  | _ => none

mutual

/-- A document without blanks. -/
def compact : Json → String
  | .null => "null"
  | .bool b => if b then "true" else "false"
  | .number literal => literal
  | .string text => Quoting.json.quote text
  | .unpaired => "null"
  | .array items => "[" ++ ",".intercalate (compactItems items) ++ "]"
  | .object members => "\x7b" ++ ",".intercalate (compactMembers members) ++ "\x7d"

/-- The texts of items. -/
def compactItems : List Json → List String
  | [] => []
  | item :: rest => item.compact :: compactItems rest

/-- The texts of members. -/
def compactMembers : List (String × Json) → List String
  | [] => []
  | (key, value) :: rest =>
    (Quoting.json.quote key ++ ":" ++ value.compact) :: compactMembers rest

end

/-- A line break and two blanks for each level of depth. -/
def newline (depth : Nat) : String := "\n".pushn ' ' (2 * depth)

mutual

/-- A document with a line for each item and member; empty lists and objects stay closed. -/
def prettyAt (depth : Nat) : Json → String
  | .array [] => "[]"
  | .array (item :: rest) =>
    "[" ++ newline (depth + 1) ++ item.prettyAt (depth + 1)
      ++ String.join (prettyItems (depth + 1) rest) ++ newline depth ++ "]"
  | .object [] => "\x7b\x7d"
  | .object ((key, value) :: rest) =>
    "\x7b" ++ newline (depth + 1) ++ Quoting.json.quote key ++ ": " ++ value.prettyAt (depth + 1)
      ++ String.join (prettyMembers (depth + 1) rest) ++ newline depth ++ "\x7d"
  | .null => "null"
  | .bool b => if b then "true" else "false"
  | .number literal => literal
  | .string text => Quoting.json.quote text
  | .unpaired => "null"

/-- The lines of items after the first. -/
def prettyItems (depth : Nat) : List Json → List String
  | [] => []
  | item :: rest => ("," ++ newline depth ++ item.prettyAt depth) :: prettyItems depth rest

/-- The lines of members after the first. -/
def prettyMembers (depth : Nat) : List (String × Json) → List String
  | [] => []
  | (key, value) :: rest =>
    ("," ++ newline depth ++ Quoting.json.quote key ++ ": " ++ value.prettyAt depth)
      :: prettyMembers depth rest

end

/-- A document with a line for each item and member. -/
def pretty (document : Json) : String := document.prettyAt 0

end Json

end ProblemSolving
