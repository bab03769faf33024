import Conformance.Command.Arguments
import Conformance.Generate
import Conformance.Json.Printer
import Conformance.Settings.File
import Conformance.Source.File

/-!
# Runs

A run reads its arguments, its settings and a source, in this order, and generates
code for the source.  It ends with

* the help, or a mistake in the arguments,
* a report on the first thing that cannot be read or is wrong, or
* the code, on the standard output or in a file, with a report on what else there
  is to say.

A report is lines on the standard error, or with `--json` one object on the standard
output, which holds the code too.

With loose settings the code may hold halves of surrogate pairs.  The object with the
code has escapes for them.  The standard output and a file have none, so there the run
breaks off; a file is open by then and left empty.
-/

namespace Conformance.Command

/-! ## Outcomes -/

/-- What a run leaves behind, but for files. -/
structure Outcome where
  /-- The exit code: 0 for success, 1 for a failure, 2 for a mistake in the arguments. -/
  exitCode : Nat
  /-- What is on the standard output. -/
  out : String
  /-- What is on the standard error. -/
  err : String
deriving DecidableEq, Repr

/-- How to call the program. -/
def usage : String :=
  "usage: swiftgen [-h] [-I] [--codable] [--equatable] [--hashable]\n" ++
  "                [--stable-hashable] [--memberwise-init] [--all]\n" ++
  "                [--config CONFIG] [-o OUTPUT] [--json]\n" ++
  "                content\n"

/-- The help. -/
def helpText : String :=
  usage ++
  "\nGenerate Codable/Equatable/Hashable/StableHashable conformances for Swift\n" ++
  "declarations\n" ++
  "\npositional arguments:\n" ++
  "  content               Path to a Swift source file, '-' for stdin, or Swift\n" ++
  "                        source text with -I\n" ++
  "\noptions:\n" ++
  "  -h, --help            show this help message and exit\n" ++
  "  -I                    Parse CONTENT itself as Swift source\n" ++
  "  --codable             Emit a Codable conformance\n" ++
  "  --equatable           Emit an Equatable conformance\n" ++
  "  --hashable            Emit a Hashable conformance (implies Equatable)\n" ++
  "  --stable-hashable     Emit a StableHashable conformance (implies Equatable)\n" ++
  "  --memberwise-init     Emit a memberwise initializer for structs and classes\n" ++
  "  --all                 Emit every conformance and the memberwise initializer\n" ++
  "  --config CONFIG       Path to configuration JSON (default: ./swiftgen.json\n" ++
  "                        if present)\n" ++
  "  -o OUTPUT, --output OUTPUT\n" ++
  "                        Write generated code to this file instead of stdout\n" ++
  "  --json                Emit a JSON report (exit_code/diagnostics/output) on\n" ++
  "                        stdout\n"

/-- The outcome of a request for help. -/
def Outcome.help : Outcome := ⟨0, helpText, ""⟩

/-- The outcome of a mistake. -/
def Mistake.outcome (e : Mistake) : Outcome :=
  ⟨2, "", usage ++ "swiftgen: error: " ++ e.message ++ "\n"⟩

/-! ## Reports -/

/-- Where the generated code is. -/
inductive Delivery where
  /-- There is none. -/
  | nowhere
  /-- It is on the standard output. -/
  | shown (code : String)
  /-- It is in the report for programs. -/
  | reported (code : LooseText)
  /-- It is in a file. -/
  | written (path : String)
deriving DecidableEq, Repr

/-- The members of a report about the code. -/
def Delivery.members : Delivery → List (LooseText × Json)
  | nowhere | shown _ => []
  | reported code => [("output", .string code)]
  | written path => [("output_path", .string path)]

/-- The code on the standard output. -/
def Delivery.out : Delivery → String
  | shown code => code
  | nowhere | reported _ | written _ => ""

/-- How a run with a source ends. -/
structure Report where
  /-- The exit code. -/
  exitCode : Nat
  /-- What there is to say. -/
  diagnostics : List Diagnostic
  /-- Where the code is. -/
  delivery : Delivery := .nowhere
deriving DecidableEq, Repr

namespace Report

/-- The report for programs.  The source stands in for a file that is not known. -/
def toJson (r : Report) (source : String) : Json := .object (
  ("exit_code", .integer r.exitCode) ::
  ("diagnostics", .array (r.diagnostics.map fun d => d.toJson source)) ::
  r.delivery.members)

/-- The report for people. -/
def human (r : Report) : String := String.join (r.diagnostics.map fun d => d.human ++ "\n")

/-- The outcome with a report. -/
def outcome (r : Report) (source : String) (asJson : Bool) : Outcome :=
  if asJson then ⟨r.exitCode, (r.toJson source).print ++ "\n", ""⟩
  else ⟨r.exitCode, r.delivery.out, r.human⟩

end Report

/-! ## Sources -/

/-- Where the source is. -/
inductive Input where
  /-- It is the content itself. -/
  | inline (source : String)
  /-- It is on the standard input. -/
  | standardInput
  /-- It is in a file. -/
  | file (path : String)
deriving DecidableEq, Repr

namespace Input

/-- The place that arguments give. -/
def ofArguments (a : Arguments) : Input :=
  let content := a.content.getD ""
  if a.has .inline then inline content
  else if content = "-" then standardInput
  else file content

/-- The name of the source. -/
def label : Input → String
  | inline _ => "<inline>"
  | standardInput => "<stdin>"
  | file path => path

variable {m : Type → Type} [Monad m]

/-- The declarations of the source. -/
def load (host : Host m) (i : Input) : m (Except Breakdown (Except Diagnostic SourceFile)) := do
  match i with
  | inline source => return .ok (SourceFile.read source (some i.label))
  | standardInput =>
    match Text.Utf8.decode (← host.standardInput) with
    | .ok text => return .ok (SourceFile.readLines text i.label)
    | .error f => return .error (.undecodable f)
  | file path => SourceFile.load host (.ofText path)

end Input

/-! ## Code -/

/-- The features that options ask for. -/
def Arguments.options (a : Arguments) : Options where
  serialization := a.has .codable
  equality := a.has .equatable
  hashing := a.has .hashable
  stableHashing := a.has .stableHashable
  memberwiseInit := a.has .memberwiseInit

/-- The features to generate.  Those of the settings count if no option asks for one. -/
def Arguments.effectiveOptions (a : Arguments) (s : LooseSettings) : Options :=
  if a.has .all then .everything
  else if a.options.isEmpty then .ofFeatures s.features
  else a.options

/-- The warning that nothing is generated. -/
def nothingWarning (source : String) : Diagnostic where
  message := "no struct, class or enum declarations to generate code for"
  phase := some "generate"
  severity := "warning"
  span := .ofFile (some source)

/-- The warnings about a source.  Whether there is any unit does not hang on texts of settings. -/
def warningsOf (f : SourceFile) (o : Options) (s : LooseSettings) (source : String) :
    List Diagnostic :=
  (if (f.units o (s.fill Half.oneStand)).isEmpty then [nothingWarning source] else []) ++
    f.warnings o

/-- The error that the code cannot be written. -/
def outputError (f : FileFault) (p : Path) : Diagnostic where
  message := "cannot write output: " ++ f.message
  code := some "E-OUTPUT"
  phase := some "output"
  span := .ofFile (some p.text)

/-! ## Runs -/

variable {m : Type → Type} [Monad m]

/-- The settings of a run with its arguments. -/
def loadSettings (host : Host m) (config : Option OptionValue) :
    m (Except SettingsFailure LooseSettings) :=
  match config with
  | none => Settings.resolve host none host.directory
  | some (.text path) => Settings.resolve host (some (.ofText path)) host.directory
  | some .nothing => pure (.error (.breakdown .nothingToRead))

/-- Writes code to a file.  The file is opened before the code is encoded. -/
def writeCode (host : Host m) (p : Path) (code : LooseText) :
    m (Except Breakdown (Except FileFault Unit)) := do
  match ← host.create p with
  | .error f => return .ok (.error f)
  | .ok () =>
    match code.encode with
    | .ok text => return .ok (← host.write p text)
    | .error f => return .error (.unencodable f)

/-- Shows the code, reports it, or writes it to a file. -/
def deliver (host : Host m) (a : Arguments) (code : LooseText) (ds : List Diagnostic) :
    m (Except Breakdown Report) := do
  match a.output with
  | none =>
    if a.has .json then return .ok ⟨0, ds, .reported code⟩
    match code.encode with
    | .ok text => return .ok ⟨0, ds, .shown text⟩
    | .error f => return .error (.unencodable f)
  | some .nothing => return .error .nothingToWrite
  | some (.text path) =>
    let p := Path.ofText path
    if p.hasNull then return .error .nullInPath
    match ← writeCode host p code with
    | .ok (.ok ()) => return .ok ⟨0, ds, .written p.text⟩
    | .ok (.error f) => return .ok ⟨1, ds ++ [outputError f p], .nowhere⟩
    | .error b => return .error b

/-- The report of a run with its arguments. -/
def report (host : Host m) (a : Arguments) : m (Except Breakdown Report) := do
  match ← loadSettings host a.config with
  | .error (.breakdown b) => return .error b
  | .error (.problem p) => return .ok ⟨1, [p.diagnostic], .nowhere⟩
  | .ok s =>
    let input := Input.ofArguments a
    match ← input.load host with
    | .error b => return .error b
    | .ok (.error d) => return .ok ⟨1, [d], .nowhere⟩
    | .ok (.ok f) =>
      let o := a.effectiveOptions s
      deliver host a (f.looseCode o s) (warningsOf f o s input.label)

/-- The outcome of a run, or what breaks it off. -/
def run (host : Host m) (args : List String) : m (Except Breakdown Outcome) := do
  match parse args with
  | .help => return .ok .help
  | .mistake e => return .ok e.outcome
  | .run a =>
    match ← report host a with
    | .error b => return .error b
    | .ok r => return .ok (r.outcome (Input.ofArguments a).label (a.has .json))

end Conformance.Command
