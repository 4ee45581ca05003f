/-!
# Columns

* `padRight`, `padLeft` : a text filled up with blanks to a number of characters.
-/

namespace ProblemSolving

/-- The text with blanks after it, up to `width` characters. -/
def padRight (width : Nat) (text : String) : String :=
  text.pushn ' ' (width - text.length)

/-- The text with blanks before it, up to `width` characters. -/
def padLeft (width : Nat) (text : String) : String :=
  "".pushn ' ' (width - text.length) ++ text

end ProblemSolving
