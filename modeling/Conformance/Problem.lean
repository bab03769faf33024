import Conformance.Diagnostic
import Conformance.Host
import Conformance.Json.Reader
import Conformance.Text.Quoted
import Conformance.Text.Utf8

/-!
# Problems outside of sources

Whatever is wrong with a configuration file is a *problem*, with a code, the path,
and the member it is about.  It is reported like any other diagnostic.

A few things are not turned into problems but break the run off.
-/

namespace Conformance

/-! ## Problems -/

/-- A problem outside of the source. -/
structure Problem where
  /-- A code for programs. -/
  code : String
  /-- What is the matter. -/
  message : LooseText
  /-- The file. -/
  path : Option String
  /-- The member of the configuration. -/
  key : Option LooseText
deriving DecidableEq, Repr

namespace Problem

/-- The problem for people.  A path or key that is empty is left out. -/
def text (p : Problem) : LooseText :=
  let part (name : String) (value : Option LooseText) : LooseText :=
    match value.filter (!·.isEmpty) with
    | some v => " " ++ name ++ "=" ++ v
    | none => ""
  "[" ++ p.code ++ "] " ++ p.message ++ part "key" p.key ++ part "path" (p.path.map .ofString)

/-- A configuration that cannot be used. -/
def invalid (message : LooseText) (path : Option String) (key : Option LooseText) : Problem :=
  ⟨"config-invalid", message, path, key⟩

/-- A configuration file that cannot be read. -/
def unreadable (f : FileFault) (path : String) : Problem :=
  ⟨"config-unreadable", "cannot read configuration: " ++ f.message, some path, none⟩

/-- A configuration that is not JSON. -/
def malformed (l : Json.Located) (path : String) : Problem :=
  invalid ("malformed JSON at line " ++ toString l.line ++ " column " ++ toString l.column ++
    ": " ++ l.fault.message) (some path) none

/-- The problem as a diagnostic. -/
def diagnostic (p : Problem) : Diagnostic where
  message := p.message
  code := some p.code
  phase := some "config"
  span := .ofFile p.path
  notes := match p.key.filter (!·.isEmpty) with
    | some key => ["key: " ++ key]
    | none => []

end Problem

/-! ## Breaking off -/

/-- What breaks a run off. -/
inductive Breakdown where
  /-- A configuration file that is not UTF-8. -/
  | undecodable (f : Text.Utf8.Fault)
  /-- An integer in a configuration file that is too long to convert. -/
  | longInteger (digits : Nat)
  /-- Code for the standard output or for a file that has no encoding. -/
  | unencodable (f : LooseText.Fault)
  /-- A path with the null character. -/
  | nullInPath
  /-- A path that cannot be looked up. -/
  | unreachable (f : FileFault) (path : String)
  /-- Nothing in place of the path of a file to read. -/
  | nothingToRead
  /-- Nothing in place of the path of a file to write. -/
  | nothingToWrite
deriving DecidableEq, Repr

/-- The wording of a breakdown. -/
def Breakdown.message : Breakdown → String
  | undecodable f => f.message
  | longInteger digits => (Json.Fault.longInteger digits).message
  | unencodable f => f.message
  | nullInPath => "embedded null byte"
  | unreachable f path =>
    "[Errno " ++ toString f.number ++ "] " ++ f.message ++ ": " ++ Text.quoted path
  | nothingToRead => "'list' object has no attribute 'read_text'"
  | nothingToWrite => "'list' object has no attribute 'write_text'"

end Conformance
