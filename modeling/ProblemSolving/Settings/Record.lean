import ProblemSolving.Json.Reader

/-!
# Records in documents

* `Record.fields?` : the fields of an object by their names, or of an array by their places.
* `Record.required`, `Record.orDefault` : the value of a field.
* `Choice.read?` : one of some names.
-/

namespace ProblemSolving

namespace Record

/-- The value of the one member with a key; a repeated key is refused. -/
def unique? (members : List (String × Json)) (key : String) : Option (Option Json) :=
  match members.filter (·.1 == key) with
  | [] => some none
  | [(_, value)] => some (some value)
  | _ => none

/-- The values of the named fields. An object may leave fields out and have others besides; an
array has the values in order and may end early. -/
def fields? (names : List String) : Json → Option (List (Option Json))
  | .object members => names.mapM (unique? members)
  | .array items =>
    if names.length < items.length then none
    else some (items.map some ++ List.replicate (names.length - items.length) none)
  | _ => none

/-- The same, for records whose objects have no fields besides. -/
def closedFields? (names : List String) (value : Json) : Option (List (Option Json)) :=
  match value with
  | .object members =>
    if members.all fun member => names.contains member.1 then fields? names value else none
  | _ => fields? names value

/-- A field that must be there. -/
def required {α : Type} (read? : Json → Option α) (field : Option Json) : Option α :=
  field.bind read?

/-- A field with a default. -/
def orDefault {α : Type} (default : α) (read? : Json → Option α) : Option Json → Option α
  | none => some default
  | some value => read? value

/-- A value that may be `null`. -/
def optional? {α : Type} (read? : Json → Option α) : Json → Option (Option α)
  | .null => some none
  | value => (read? value).map some

def bool? : Json → Option Bool
  | .bool b => some b
  | _ => none

def text? : Json → Option String
  | .string s => some s
  | _ => none

/-- A list of values. -/
def list? {α : Type} (read? : Json → Option α) : Json → Option (List α)
  | .array items => items.mapM read?
  | _ => none

/-- Whole numbers of 8, 32 and 64 bits. -/
def nat8? : Json → Option Nat := Json.nat? (Nat.pow 2 8)

def nat32? : Json → Option Nat := Json.nat? (Nat.pow 2 32)

def nat64? : Json → Option Nat := Json.nat? (Nat.pow 2 64)

end Record

/-- A choice between names: the name, or an object whose one member has the name and no
value. -/
def Choice.read? {α : Type} (choices : List (String × α)) (value : Json) : Option α :=
  let name? := match value with
    | .string s => some s
    | .object [(s, .null)] => some s
    | _ => none
  name?.bind fun name => (choices.find? (·.1 == name)).map (·.2)

/-- The name of a choice. -/
def Choice.toJson {α : Type} [DecidableEq α] (choices : List (String × α)) (a : α) : Json :=
  match choices.find? (·.2 = a) with
  | some (name, _) => .string name
  | none => .null

end ProblemSolving
