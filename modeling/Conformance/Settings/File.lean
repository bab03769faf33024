import Conformance.Problem
import Conformance.Settings
import Conformance.Text.Newline

/-!
# Settings from files

The settings of a run come from a file that is named, or else from the file
`swiftgen.json` in the directory of the run if there is one.

Whatever is wrong with the file is a problem, but for a few things that break the
run off: bytes that are not UTF-8, an integer that is too long to convert, and a
path that no file system takes or looks up.
-/

namespace Conformance

/-- Why there are no settings. -/
inductive SettingsFailure where
  | problem (p : Problem)
  | breakdown (b : Breakdown)
deriving DecidableEq, Repr

/-- The problem of a fault in settings. -/
def Settings.Fault.problem (f : Settings.Fault) (path : Option String) : Problem :=
  .invalid f.message path f.key?

/-! ## Reading settings -/

namespace Settings

/-- The name of the file that need not be named. -/
def fileName : String := "swiftgen.json"

/-- The settings of a JSON text. -/
def ofText (text path : String) : Except SettingsFailure LooseSettings :=
  match Json.parse text with
  | .ok j => (ofJson j).mapError fun f => .problem (f.problem (some path))
  | .error l =>
    match l.fault with
    | .longInteger digits => .error (.breakdown (.longInteger digits))
    | _ => .error (.problem (.malformed l path))

/-- The settings of the bytes of a file. -/
def ofBytes (bytes : List UInt8) (path : String) : Except SettingsFailure LooseSettings :=
  match Text.Utf8.decode bytes with
  | .ok text => ofText (String.ofList (Text.unifyLineEnds text.toList)) path
  | .error f => .error (.breakdown (.undecodable f))

variable {m : Type → Type} [Monad m]

/-- The settings of a file. -/
def load (host : Host m) (p : Path) : m (Except SettingsFailure LooseSettings) := do
  if p.hasNull then return .error (.breakdown .nullInPath)
  match ← host.read p with
  | .ok bytes => return ofBytes bytes p.text
  | .error f => return .error (.problem (.unreadable f p.text))

/-- The settings of a run, from the file that is named or the one in a directory. -/
def resolve (host : Host m) (explicit : Option Path) (directory : Path) :
    m (Except SettingsFailure LooseSettings) := do
  match explicit with
  | some p => load host p
  | none =>
    let p := directory.child fileName
    if p.hasNull then return .ok (.ofSettings {})
    match ← host.isFile p with
    | .ok true => load host p
    | .ok false => return .ok (.ofSettings {})
    | .error f => return .error (.breakdown (.unreachable f p.text))

end Settings

end Conformance
