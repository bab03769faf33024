import Conformance.Code.Statement

/-!
# The memberwise initializer

An initializer with one parameter for each field, in order.  It is meant to stand
in the body of the type, so it is no extension.  The initial value of a field is
the default of its parameter.

Parameters and assignments are data, as the statements of extensions are, and the
lines of the initializer are their print.
-/

namespace Conformance

/-- A parameter of an initializer, with its name for a label. -/
structure Parameter where
  /-- The name. -/
  name : String
  /-- The type. -/
  type : String
  /-- What it stands for where it is not passed. -/
  default : Option String
deriving DecidableEq, Repr

/-- A parameter, with its default behind it. -/
def Parameter.text (p : Parameter) : String :=
  p.name ++ ": " ++ p.type ++ match p.default with
    | some value => " = " ++ value
    | none => ""

/-- A statement that sets a property of the value that is made. -/
structure Assignment where
  /-- The property. -/
  property : String
  /-- The name of what it is set to. -/
  value : String
deriving DecidableEq, Repr

/-- An assignment. -/
def Assignment.text (a : Assignment) : String := "self." ++ a.property ++ " = " ++ a.value

namespace Field

/-- The parameter of a field. -/
def parameter (f : Field) : Parameter := ⟨f.name, f.type, f.default⟩

/-- The statement that sets a field to its parameter. -/
def assignment (f : Field) : Assignment := ⟨f.name, f.name⟩

end Field

/-- The initializer of a type from all its fields. -/
structure MemberwiseInit where
  /-- The fields. -/
  fields : List Field
  /-- Whether other modules may use it. -/
  isPublic : Bool
deriving DecidableEq, Repr

namespace MemberwiseInit

/-- The parameters. -/
def parameters (m : MemberwiseInit) : List Parameter := m.fields.map Field.parameter

/-- The body. -/
def assignments (m : MemberwiseInit) : List Assignment := m.fields.map Field.assignment

/-- The comment in front of the initializer. -/
def comment : String := "/// Memberwise initializer."

/-- The lines of the initializer. -/
def lines (m : MemberwiseInit) : List Line :=
  let opening := accessWord m.isPublic ++ "init("
  .text 0 comment ::
    if m.fields.isEmpty then [.text 0 (opening ++ ") \x7b\x7d")]
    else
      .text 0 opening :: (withCommas (m.parameters.map Parameter.text)).map (Line.text 1) ++
        .text 0 ") \x7b" :: m.assignments.map (fun a => .text 1 a.text) ++ [.text 0 "\x7d"]

/-- The text of the initializer. -/
def render (unit : String) (m : MemberwiseInit) : String := Line.renderAll unit m.lines

end MemberwiseInit

end Conformance
