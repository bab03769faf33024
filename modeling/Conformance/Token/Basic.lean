import Conformance.Position
import Conformance.Token.Kind

/-!
# Tokens

A token is a stretch of source text with its kind and its place.  It carries
the *layout* in front of it, the blanks and comments since the token before, so
a list of tokens that stand next to each other in a source holds the whole text
from the first to the last of them (`Token.stretch`).  Declarations keep types
and expressions as such texts.
-/

namespace Conformance

/-- A token of a source text. -/
structure Token where
  /-- What the grammar takes it for. -/
  kind : Kind
  /-- The blanks and comments in front of it. -/
  layout : String
  /-- The text itself. -/
  text : String
  /-- Where it begins. -/
  start : Position
  /-- Where it ends, one past its last character. -/
  stop : Position
deriving DecidableEq, Repr, Inhabited

namespace Token

/-- The tokens with all layout between them, and none in front of the first. -/
def stretch : List Token → String
  | [] => ""
  | t :: ts => t.text ++ String.join (ts.map fun u => u.layout ++ u.text)

@[simp] theorem stretch_nil : stretch [] = "" := rfl

@[simp] theorem stretch_singleton (t : Token) : stretch [t] = t.text := by
  simp [stretch]

end Token

end Conformance
