import Conformance.Declaration.Basic
import Conformance.Json.Basic

/-!
# Diagnostics

What the program has to say about its input.  A diagnostic has a message, a
code, the phase that found it, a severity, a place and notes.  Nearly all of it
may be missing; a text that is empty counts as missing where it is shown.  The
message and the notes are loose, since they may quote a configuration.

A diagnostic is shown as lines for people (`Diagnostic.human`) and as a member
of the report for programs (`Diagnostic.toJson`).
-/

namespace Conformance

/-! ## Places -/

/-- A place in a file, as far as it is known. -/
structure Span where
  /-- The file. -/
  file : Option String
  /-- The line. -/
  line : Option Int
  /-- The column. -/
  column : Option Int
  /-- The last line. -/
  endLine : Option Int
  /-- The column one past the end. -/
  endColumn : Option Int
deriving DecidableEq, Repr

/-- A text that is there and not empty. -/
def nonempty? (s : Option String) : Option String := s.filter (· != "")

namespace Span

/-- No more than a file. -/
def ofFile (file : Option String) : Span := ⟨file, none, none, none, none⟩

/-- A location in a file. -/
def ofLocation (l : Location) (file : Option String) : Span :=
  ⟨nonempty? file, some l.line, some l.column, none, none⟩

/-- The place, with a file where none was given before. -/
def inFile (s : Span) (file : Option String) : Span :=
  { s with file := (nonempty? file).or (nonempty? s.file) }

/-- The place in front of a message, without the parts that are not known. -/
def label (s : Span) : String :=
  let file := (nonempty? s.file).getD "<input>"
  match s.line, s.column with
  | some line, some column => file ++ ":" ++ toString line ++ ":" ++ toString column
  | some line, none => file ++ ":" ++ toString line
  | none, _ => file

end Span

/-! ## Diagnostics -/

/-- A diagnostic. -/
structure Diagnostic where
  /-- What is the matter. -/
  message : LooseText
  /-- A code for programs. -/
  code : Option String := none
  /-- The phase that found it. -/
  phase : Option String := none
  /-- How bad it is. -/
  severity : String := "error"
  /-- Where it is. -/
  span : Span := .ofFile none
  /-- What else to know. -/
  notes : List LooseText := []
deriving DecidableEq, Repr

namespace Diagnostic

/-- Whether the diagnostic is an error. -/
def isError (d : Diagnostic) : Bool := d.severity == "error"

/-- The diagnostic for people as the standard error shows it, with a line for each note. -/
def human (d : Diagnostic) : String :=
  let code := match nonempty? d.code with
    | some c => " [" ++ c ++ "]"
    | none => ""
  let head := d.span.label ++ ": " ++ d.severity ++ ": " ++ d.message.shown ++ code
  "\n".intercalate (head :: d.notes.map fun n => "  note: " ++ n.shown)

/-- A number that may be missing. -/
def jsonInt? : Option Int → Json
  | some n => .integer n
  | none => .null

/-- The diagnostic for programs.  The source stands in for a file that is not known. -/
def toJson (d : Diagnostic) (source : String) : Json := .object [
  ("phase", .ofText? d.phase),
  ("message", .string d.message),
  ("code", .ofText? d.code),
  ("severity", .string d.severity),
  ("file", .string ((nonempty? d.span.file).getD source)),
  ("line", jsonInt? d.span.line),
  ("column", jsonInt? d.span.column),
  ("notes", .array (d.notes.map .string))]

end Diagnostic

end Conformance
