import Conformance.Problem
import Conformance.Source
import Conformance.Text.Newline

/-!
# Sources from files

A source file is read as UTF-8 with its line ends unified.  One that cannot be read
has a diagnostic like one with a syntax error has.
-/

namespace Conformance

/-- Why a source file cannot be read. -/
inductive SourceFault where
  /-- Its bytes cannot be had. -/
  | file (f : FileFault)
  /-- Its bytes are not UTF-8. -/
  | encoding (f : Text.Utf8.Fault)
deriving DecidableEq, Repr

namespace SourceFault

/-- The wording of a fault. -/
def message : SourceFault → String
  | file f => f.message
  | encoding f => f.message

/-- The diagnostic of a fault. -/
def diagnostic (f : SourceFault) (p : Path) : Diagnostic where
  message := "cannot read input file: " ++ f.message
  code := some "E-INPUT"
  phase := some "input"
  span := .ofFile (some p.text)

end SourceFault

namespace SourceFile

/-- The declarations of a text with the line ends of any system. -/
def readLines (text filename : String) : Except Diagnostic SourceFile :=
  read (String.ofList (Text.unifyLineEnds text.toList)) (some filename)

/-- The declarations of the bytes of a file. -/
def ofBytes (bytes : List UInt8) (p : Path) : Except Diagnostic SourceFile :=
  match Text.Utf8.decode bytes with
  | .ok text => readLines text p.text
  | .error f => .error (SourceFault.diagnostic (.encoding f) p)

variable {m : Type → Type} [Monad m]

/-- The declarations of a source file. -/
def load (host : Host m) (p : Path) : m (Except Breakdown (Except Diagnostic SourceFile)) := do
  if p.hasNull then return .error .nullInPath
  match ← host.read p with
  | .ok bytes => return .ok (ofBytes bytes p)
  | .error f => return .ok (.error (SourceFault.diagnostic (.file f) p))

end SourceFile

end Conformance
