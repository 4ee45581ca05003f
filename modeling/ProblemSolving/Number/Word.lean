/-!
# Signed words

* `isWord` : whether a word of 64 bits holds a whole number.
-/

namespace ProblemSolving

/-- Whether a number lies between the least and the greatest signed word of 64 bits. -/
def isWord (n : Int) : Bool := -9223372036854775808 ≤ n && n ≤ 9223372036854775807

/-- Whether a number and its negative are words, so that its absolute value is one. -/
def isSymmetricWord (n : Int) : Bool := isWord n && isWord (-n)

end ProblemSolving
