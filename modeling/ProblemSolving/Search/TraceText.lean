import ProblemSolving.Digest.Sha256
import ProblemSolving.Json.Value
import ProblemSolving.Search.Outcome

/-!
# The canonical text of a trace

* `Trace.toJson` : the document of a trace, its keys in ascending order.
* `Trace.text` : its compact text.
* `Trace.digest` : the digest of the text, which two runs share when they made the same decisions.
-/

namespace ProblemSolving

/-- The document of an expansion. -/
def ExpandEvent.toJson (e : ExpandEvent Double) : Json :=
  .object [("children", Json.ofList Json.ofNat e.children), ("depth", Json.ofNat e.depth),
    ("f", Json.ofDouble e.f), ("node", Json.ofNat e.node), ("order", Json.ofNat e.order)]

namespace Trace

/-- The name and version of the format. -/
def schema : String := "cairn.search_trace.v1"

/-- The document of a trace. -/
def toJson (t : Trace Double) : Json :=
  .object [("algorithm", .string t.algorithm), ("events", Json.ofList ExpandEvent.toJson t.events),
    ("schema", .string schema), ("termination", Json.ofOption .string t.termination)]

/-- The text of a trace. -/
def text (t : Trace Double) : String := t.toJson.compact

/-- The digest of a trace, with the name of its method. -/
def digest (t : Trace Double) : String := "sha256:" ++ Sha256.hexDigest t.text

end Trace

/-- The digest of a recorded trace; an error says that none was recorded. -/
def Result.digest {σ α : Type} (run : String) (r : Result σ α Double) : Except String String :=
  match r.trace with
  | some trace => .ok trace.digest
  | none => .error (run ++ " did not record a trace")

end ProblemSolving
