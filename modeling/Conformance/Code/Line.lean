/-!
# Lines of code

Generated code is a list of lines, each with its depth of nesting.  How far a
depth is indented is settled only when the lines become text, so the code itself
does not hang on the configured indentation.
-/

namespace Conformance

/-- A line of code. -/
inductive Line where
  /-- A text at a depth. -/
  | text (depth : Nat) (s : String)
  /-- A line with nothing on it. -/
  | blank
deriving DecidableEq, Repr

namespace Line

/-- The line with its indentation. -/
def render (unit : String) : Line → String
  | text depth s => String.join (List.replicate depth unit) ++ s
  | blank => ""

/-- The line deeper by one level. -/
def nested : Line → Line
  | text depth s => text (depth + 1) s
  | blank => blank

/-- Lines joined by line feeds. -/
def renderAll (unit : String) (lines : List Line) : String :=
  "\n".intercalate (lines.map (render unit))

@[simp] theorem nested_blank : blank.nested = blank := rfl

theorem render_nested_text (unit : String) (depth : Nat) (s : String) :
    (text depth s).nested.render unit = unit ++ (text depth s).render unit := by
  simp [nested, render, List.replicate_succ, String.append_assoc]

end Line

/-- Lines one level deeper. -/
def nest (lines : List Line) : List Line := lines.map Line.nested

end Conformance
