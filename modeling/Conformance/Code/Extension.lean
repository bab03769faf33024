import Conformance.Code.Statement

/-!
# Extensions of generated code

A conformance is generated as an extension of its type.  Its members are keys
and functions, with a blank line between each two.

A function is known by its *method*, the requirement of the conformance that it
meets.  The method settles the header, and with it the names that are in scope in
the body besides the members of the type.
-/

namespace Conformance

/-- The functions of generated code. -/
inductive Method where
  /-- Coding. -/
  | encode
  /-- Decoding.  A class does it by way of another initializer. -/
  | decode (convenience : Bool)
  /-- Comparison of two values of a type. -/
  | equals (type : String)
  /-- Hashing. -/
  | hash
  /-- The name of a value's variant. -/
  | variantName
  /-- The stable hash, under the name of its property. -/
  | stableHash (property : String)
deriving DecidableEq, Repr

namespace Method

/-- What stands in front of the body. -/
def header (access : String) : Method → String
  | encode => access ++ "func encode(to encoder: Encoder) throws"
  | decode convenience =>
    access ++ (if convenience then "convenience init" else "init") ++
      "(from decoder: Decoder) throws"
  | equals type =>
    access ++ "static func ==(lhs: " ++ type ++ ", rhs: " ++ type ++ ") -> Bool"
  | hash => access ++ "func hash(into hasher: inout Hasher)"
  | variantName => "var " ++ nameProperty ++ ": String"
  | stableHash property => access ++ "var " ++ property ++ ": Int"

/-- The parameters that the body sees. -/
def parameters : Method → List String
  | encode => ["encoder"]
  | decode _ => ["decoder"]
  | equals _ => ["lhs", "rhs"]
  | hash => ["hasher"]
  | variantName | stableHash _ => []

end Method

/-- A member of an extension. -/
inductive CodeMember where
  /-- An enumeration of keys, each with its name as a text if it is `textual`. -/
  | keys (name : String) (textual : Bool) (cases : List String)
  /-- A function. -/
  | function (method : Method) (body : List Statement)
deriving DecidableEq, Repr

namespace CodeMember

/-- The lines of a member. -/
def lines (access : String) : CodeMember → List Line
  | keys name _ [] => [.text 0 ("enum " ++ name ++ ": CodingKey \x7b\x7d")]
  | keys name textual cases => [
    .text 0 ("enum " ++ name ++ ": " ++ (if textual then "String, " else "") ++
      "CodingKey \x7b"),
    .text 1 ("case " ++ commaList cases),
    .text 0 "\x7d"]
  | function method body =>
    .text 0 (method.header access ++ " \x7b") :: body.flatMap (Statement.lines 1) ++
      [.text 0 "\x7d"]

end CodeMember

/-- The extension of a type that makes it conform. -/
structure Extension where
  /-- The type. -/
  type : String
  /-- What it conforms to. -/
  conformance : String
  /-- Whether other modules may use the members. -/
  isPublic : Bool
  /-- The members. -/
  members : List CodeMember
deriving DecidableEq, Repr

namespace Extension

/-- Lines of several members with a blank line between each two. -/
def separated : List (List Line) → List Line
  | [] => []
  | [ls] => ls
  | ls :: rest => ls ++ .blank :: separated rest

/-- The lines of an extension. -/
def lines (e : Extension) : List Line :=
  .text 0 ("extension " ++ e.type ++ ": " ++ e.conformance ++ " \x7b") ::
    nest (separated (e.members.map (CodeMember.lines (accessWord e.isPublic)))) ++
    [.text 0 "\x7d"]

/-- The text of an extension. -/
def render (unit : String) (e : Extension) : String := Line.renderAll unit e.lines

end Extension

/-- Several extensions as one block, with a blank line between each two. -/
def renderBlock (unit : String) (es : List Extension) : String :=
  "\n\n".intercalate (es.map (Extension.render unit))

end Conformance
