import Conformance.Proofs.Command.Configuration
import Conformance.Proofs.Command.Reports

/-!
# Channels

A text comes to the same wherever it stands and wherever its code goes.  It may be the content
itself, a file or the standard input; the code may be shown, be a member of the report for
programs, or be in a file (`Command.run_channels`).

What a run comes to is said once, without its channels: the diagnostics, and the code if there
is any (`Command.finding`).  Each channel in leads to the finding with its own label of the
source, and the label is in no more than the files of diagnostics.  Each channel out shows the
finding (`Command.Shows`).

One thing is in the way.  Settings may put halves of surrogate pairs into the code, and then it
has no encoding.  A report for programs holds such code, and no other channel does, so there the
run breaks off (`Command.Finding.obstacle?`).
-/

namespace Conformance

variable {σ : Type} {host : Host (StateM σ)} {s : σ}

/-! ## Channels in -/

/-- A host with bytes on its standard input. -/
def Host.withInput (host : Host (StateM σ)) (bytes : List UInt8) : Host (StateM σ) :=
  { host with standardInput := pure bytes }

/-- A host of a file tree with other input. -/
theorem FileTree.withInput_host (here : List String) (directory : Path)
    (input bytes : List UInt8) :
    (FileTree.host here directory input).withInput bytes = FileTree.host here directory bytes :=
  rfl

theorem Host.Faithful.withInput (faithful : host.Faithful) (bytes : List UInt8) :
    (host.withInput bytes).Faithful where
  isFile := faithful.isFile
  read := faithful.read
  standardInput := .pure bytes
  create_error := faithful.create_error

/-- A text without carriage returns is read from its bytes as it is. -/
theorem SourceFile.readLines_eq {text : String} (noReturn : '\r' ∉ text.toList)
    (filename : String) : readLines text filename = read text (some filename) := by
  rw [readLines, Text.unifyLineEnds_eq_self noReturn, String.ofList_toList]

namespace Command

namespace Input

/-- An input holds a text: it is the content itself, or its bytes are those of the standard
input or of a file. -/
def Holds (host : Host (StateM σ)) (s : σ) (bytes : List UInt8) (text : String) : Input → Prop
  | inline source => source = text
  | standardInput => bytes = text.toUTF8.toList
  | file path => (Path.ofText path).hasNull = false ∧
    ((host.read (.ofText path)).run s).1 = .ok text.toUTF8.toList

/-- The name of the source in the diagnostics about it. -/
def fileName : Input → String
  | inline _ => "<inline>"
  | standardInput => "<stdin>"
  | file path => (Path.ofText path).text

theorem fileName_ne_empty (i : Input) : i.fileName ≠ "" := by
  cases i with
  | inline source => exact (by decide : "<inline>" ≠ "")
  | standardInput => exact (by decide : "<stdin>" ≠ "")
  | file path => exact Path.text_ofText_ne_empty path

/-- From every input the text that it holds is read. -/
theorem load_of_holds (faithful : host.Faithful) {i : Input} {bytes : List UInt8} {text : String}
    (noReturn : '\r' ∉ text.toList) (holds : i.Holds host s bytes text) :
    (i.load (host.withInput bytes)).run s = (.ok (SourceFile.read text (some i.fileName)), s) := by
  have decoded : Text.Utf8.decode text.toUTF8.toList = .ok text :=
    Text.Utf8.decode_eq_ok_iff.mpr rfl
  cases i with
  | inline source =>
    obtain rfl : source = text := holds
    rfl
  | standardInput =>
    obtain rfl : bytes = text.toUTF8.toList := holds
    have standard : ((host.withInput text.toUTF8.toList).standardInput).run s =
        (text.toUTF8.toList, s) := rfl
    rw [load, run_bind_of standard, decoded]
    simp only [SourceFile.readLines_eq noReturn]
    rfl
  | file path =>
    obtain ⟨noNull, read⟩ := holds
    have whole : ((host.withInput bytes).read (.ofText path)).run s =
        (.ok text.toUTF8.toList, s) := Prod.ext read (faithful.read _ s)
    rw [load, SourceFile.load, noNull]
    simp only [Bool.false_eq_true, if_false]
    rw [run_bind_of whole]
    simp only [SourceFile.ofBytes, decoded, SourceFile.readLines_eq noReturn]
    rfl

end Input

/-! ## Findings -/

/-- What a run comes to, whatever its channels. -/
structure Finding where
  /-- What there is to say. -/
  diagnostics : List Diagnostic
  /-- The code, if the run succeeds. -/
  code : Option LooseText

/-- The exit code for a finding. -/
def Finding.exitCode (f : Finding) : Nat := if f.code.isSome then 0 else 1

/-- What a run comes to with arguments, with what is read of its settings, and with a text. -/
def finding (a : Arguments) (loaded : Except SettingsFailure LooseSettings) (text : String) :
    Except Breakdown Finding :=
  let input := Input.ofArguments a
  match loaded with
  | .error (.breakdown b) => .error b
  | .error (.problem p) => .ok ⟨[p.diagnostic], none⟩
  | .ok settings =>
    match SourceFile.read text (some input.fileName) with
    | .error d => .ok ⟨[d], none⟩
    | .ok f => .ok ⟨warningsOf f (a.effectiveOptions settings) settings input.label,
        some (codeOf a settings f)⟩

/-- With settings and a source the run comes to the code and the warnings. -/
theorem finding_of_read {a : Arguments} {settings : LooseSettings} {text : String} {f : SourceFile}
    (read : SourceFile.read text (some (Input.ofArguments a).fileName) = .ok f) :
    finding a (.ok settings) text =
      .ok ⟨warningsOf f (a.effectiveOptions settings) settings (Input.ofArguments a).label,
        some (codeOf a settings f)⟩ := by
  simp only [finding, read]

/-- Arguments that ask for the same with the same configuration. -/
structure Arguments.Agrees (a b : Arguments) : Prop where
  /-- The configuration. -/
  config : a.config = b.config
  /-- The features. -/
  options : a.options = b.options
  /-- Whether all features are asked for. -/
  all : a.has .all = b.has .all

theorem Arguments.Agrees.effectiveOptions {a b : Arguments} (agrees : a.Agrees b)
    (settings : LooseSettings) : a.effectiveOptions settings = b.effectiveOptions settings := by
  rw [Arguments.effectiveOptions, Arguments.effectiveOptions, agrees.options, agrees.all]

end Command

/-- A diagnostic without its file. -/
def Diagnostic.unlabelled (d : Diagnostic) : Diagnostic :=
  { d with span := { d.span with file := none } }

theorem SourceFile.filename_of_read {text : String} {name : Option String} {f : SourceFile}
    (done : read text name = .ok f) : f.filename = name := by
  rw [read] at done
  cases syntax' : readSyntax text.toList with
  | ok items =>
    simp only [syntax', Except.ok.injEq] at done
    rw [← done]
  | error e => simp [syntax'] at done

/-- The name of a source is in no more than the files of diagnostics. -/
theorem SourceFile.read_rename (text name name' : String) :
    (∃ ds, read text (some name) = .ok ⟨ds, some name⟩ ∧
      read text (some name') = .ok ⟨ds, some name'⟩) ∨
    ∃ d d', read text (some name) = .error d ∧ read text (some name') = .error d' ∧
      d.unlabelled = d'.unlabelled := by
  simp only [read]
  cases readSyntax text.toList with
  | ok items => exact .inl ⟨_, rfl, rfl⟩
  | error f => exact .inr ⟨_, _, rfl, rfl, rfl⟩

namespace Command

theorem unlabelled_warningsOf (ds : List Declaration) (o : Options) (settings : LooseSettings)
    (name name' label label' : String) :
    (warningsOf ⟨ds, some name⟩ o settings label).map Diagnostic.unlabelled =
      (warningsOf ⟨ds, some name'⟩ o settings label').map Diagnostic.unlabelled := by
  have units : SourceFile.units ⟨ds, some name⟩ o (settings.fill Half.oneStand) =
      SourceFile.units ⟨ds, some name'⟩ o (settings.fill Half.oneStand) := rfl
  have nominals : SourceFile.nominals ⟨ds, some name⟩ = SourceFile.nominals ⟨ds, some name'⟩ := rfl
  rw [warningsOf, warningsOf, List.map_append, List.map_append, units, SourceFile.warnings,
    SourceFile.warnings, nominals]
  congr 1
  · split <;> rfl
  · split
    · rw [List.map_map, List.map_map]
      rfl
    · rfl

/-- Two inputs with the same text come to the same up to the label of the source. -/
theorem finding_agrees {a b : Arguments} (agrees : a.Agrees b)
    (loaded : Except SettingsFailure LooseSettings) (text : String) :
    (∃ e, loaded = .error (.breakdown e)) ∨
    ∃ f g, finding a loaded text = .ok f ∧ finding b loaded text = .ok g ∧
      f.code = g.code ∧
      f.diagnostics.map Diagnostic.unlabelled = g.diagnostics.map Diagnostic.unlabelled := by
  unfold finding
  match loaded with
  | .error (.breakdown e) => exact .inl ⟨e, rfl⟩
  | .error (.problem p) => exact .inr ⟨_, _, rfl, rfl, rfl, rfl⟩
  | .ok settings =>
    right
    dsimp only
    rcases SourceFile.read_rename text (Input.ofArguments a).fileName
      (Input.ofArguments b).fileName with ⟨ds, one, other⟩ | ⟨d, d', one, other, same⟩
    · have code : codeOf a settings ⟨ds, some (Input.ofArguments a).fileName⟩ =
          codeOf b settings ⟨ds, some (Input.ofArguments b).fileName⟩ := by
        rw [codeOf, codeOf, agrees.effectiveOptions]
        rfl
      refine ⟨_, _, by rw [one], by rw [other], congrArg some code, ?_⟩
      rw [agrees.effectiveOptions]
      exact unlabelled_warningsOf ds _ settings _ _ _ _
    · refine ⟨⟨[d], none⟩, ⟨[d'], none⟩, by rw [one], by rw [other], rfl, ?_⟩
      rw [List.map_singleton, List.map_singleton, same]

/-- What a run comes to depends on its arguments by the place of the text and the features. -/
theorem finding_congr {a b : Arguments} (agrees : a.Agrees b)
    (same : Input.ofArguments a = Input.ofArguments b)
    (loaded : Except SettingsFailure LooseSettings) (text : String) :
    finding a loaded text = finding b loaded text := by
  unfold finding
  simp only [codeOf, same, agrees.effectiveOptions]

/-! ## Files of diagnostics -/

theorem nonempty?_some {s : String} (some : s ≠ "") : nonempty? (.some s) = .some s := by
  simp [nonempty?, some]

/-- The diagnostic of a source that cannot be read names the source. -/
theorem file_of_read {text name : String} {d : Diagnostic} (some : name ≠ "")
    (failed : SourceFile.read text (.some name) = .error d) : nonempty? d.span.file ≠ none := by
  rw [SourceFile.read] at failed
  cases syntax' : readSyntax text.toList with
  | ok items => simp [syntax'] at failed
  | error f =>
    simp only [syntax', Except.error.injEq] at failed
    rw [← failed, SyntaxFailure.diagnostic, Span.ofLocation, nonempty?_some some,
      nonempty?_some some]
    exact Option.some_ne_none _

theorem isPlaced_warningsOf {f : SourceFile} {name : String} (named : f.filename = .some name)
    (some : name ≠ "") {o : Options} {settings : LooseSettings} {label : String} {d : Diagnostic}
    (mem : d ∈ warningsOf f o settings label) : d.IsPlaced label := by
  rw [warningsOf, List.mem_append] at mem
  rcases mem with nothing | warning
  · split at nothing
    · rw [List.mem_singleton.mp nothing]
      exact .inr rfl
    · cases nothing
  · rw [SourceFile.warnings] at warning
    split at warning
    · obtain ⟨n, -, rfl⟩ := List.mem_map.mp warning
      refine .inl ?_
      rw [Nominal.finalWarning, Span.ofLocation, named, nonempty?_some some, nonempty?_some some]
      exact Option.some_ne_none _
    · cases warning

/-- The problem of a configuration names the file. -/
theorem file_of_problem {σ : Type} (host : Host (StateM σ)) (config : Option OptionValue) :
    Gives (loadSettings host config) fun r =>
      ∀ p, r = .error (.problem p) → nonempty? p.path ≠ none := by
  have load {q : Path} (some : q.text ≠ "") : Gives (Settings.load host q) fun r =>
      ∀ p, r = .error (.problem p) → nonempty? p.path ≠ none := by
    unfold Settings.load
    split
    · exact .pure fun p failed => nomatch failed
    · refine .bind fun r => ?_
      split
      · refine .pure fun p failed => ?_
        rw [(Settings.isInvalid_of_ofBytes failed).path, nonempty?_some some]
        exact Option.some_ne_none _
      · refine .pure fun p failed => ?_
        cases failed
        rw [Problem.unreadable, nonempty?_some some]
        exact Option.some_ne_none _
  unfold loadSettings Settings.resolve
  split
  · dsimp only
    split
    · exact .pure fun p failed => nomatch failed
    · refine .bind fun r => ?_
      split
      · have last : Settings.fileName ∈ (host.directory.child Settings.fileName).names :=
          List.mem_append_right _ (.head _)
        exact load (Path.text_ne_empty last (by decide))
      · exact .pure fun p failed => nomatch failed
      · exact .pure fun p failed => nomatch failed
  · exact load (Path.text_ofText_ne_empty _)
  · exact .pure fun p failed => nomatch failed

/-! ## Channels out -/

/-- An output can be had: the standard output, or a file that can be opened and takes what is
written to it. -/
def Writable {σ : Type} (host : Host (StateM σ)) (s : σ) : Option OptionValue → Prop
  | none => True
  | some .nothing => False
  | some (.text path) => (Path.ofText path).hasNull = false ∧
    ((host.create (.ofText path)).run s).1 = .ok () ∧ host.Takes (.ofText path)

/-- What keeps the code from where it should go.  A report for programs holds any code. -/
def Finding.obstacle? (f : Finding) (a : Arguments) : Option LooseText.Fault :=
  if a.has .json && a.output.isNone then none else f.code.bind LooseText.fault?

/-- A report for programs, as text on the standard output. -/
structure Prints (out : String) (exitCode : Nat) (lines : String) (code : Option LooseText)
    (report : Json) : Prop where
  /-- The report is what is printed. -/
  out : out = report.print ++ "\n"
  /-- It says the exit code. -/
  exitCode : report.get? "exit_code" = some (.integer exitCode)
  /-- Its diagnostics have these lines. -/
  lines : (report.get? "diagnostics").bind linesOf? = some lines
  /-- It holds the code, if there is any. -/
  code : report.get? "output" = code.map .string

/-- What is seen of a run with a finding that starts in the state `s` and ends in `s'`. -/
structure Shows {σ : Type} (host : Host (StateM σ)) (a : Arguments) (f : Finding) (o : Outcome)
    (s s' : σ) : Prop where
  /-- The exit code. -/
  exitCode : o.exitCode = f.exitCode
  /-- Without `--json` the diagnostics are lines on the standard error, and the code is on the
  standard output unless it goes to a file. -/
  people : a.has .json = false → o.err = diagnosticLines f.diagnostics ∧
    .ofString o.out = if a.output.isNone then f.code.getD "" else ""
  /-- With `--json` both are in a report on the standard output. -/
  programs : a.has .json = true → o.err = "" ∧ ∃ report, Prints o.out f.exitCode
    (diagnosticLines f.diagnostics) (if a.output.isNone then f.code else none) report
  /-- Code for a file is in the file, and without such code nothing changes. -/
  file : match a.output, f.code with
    | some (.text path), some code =>
      ∃ text, code = .ofString text ∧
        ((host.read (.ofText path)).run s').1 = .ok text.toUTF8.toList
    | _, _ => s' = s

theorem prints_reportLine {ds : List Diagnostic} {label : String}
    (placed : ∀ d ∈ ds, d.IsPlaced label) (exitCode : Nat) (delivery : Delivery) :
    ∃ report, Prints (reportLine exitCode ds label delivery.members) exitCode
      (diagnosticLines ds)
      (match delivery with
        | .reported code => some code
        | _ => none) report := by
  refine ⟨_, rfl, ?_, ?_, ?_⟩
  · simp [Json.get?]
  · simp [Json.get?, List.lookup_cons, linesOf?_toJson placed]
  · cases delivery <;> simp [Json.get?, List.lookup_cons, Delivery.members]

variable {σ : Type} {host : Host (StateM σ)} {s s' : σ} {a : Arguments} {ds : List Diagnostic}
  {label : String}

/-- A report of a failure that leaves everything as it is shows the finding. -/
theorem shows_failure (placed : ∀ d ∈ ds, d.IsPlaced label) :
    Shows host a ⟨ds, none⟩ ((⟨1, ds, .nowhere⟩ : Report).outcome label (a.has .json)) s s where
  exitCode := Report.exitCode_outcome _ _ _
  people plain := by
    rw [Report.err_outcome, Report.out_outcome, plain]
    exact ⟨rfl, (ite_self _).symm⟩
  programs json := by
    rw [Report.err_outcome, Report.out_outcome, json]
    obtain ⟨report, prints⟩ := prints_reportLine placed 1 .nowhere
    exact ⟨rfl, report, by rw [ite_self]; exact prints⟩
  file := by
    match a.output with
    | none | some .nothing | some (.text path) => rfl

/-- A report of a success shows the finding, once the code is delivered. -/
theorem shows_success (placed : ∀ d ∈ ds, d.IsPlaced label) {code : LooseText}
    {delivery : Delivery} (writable : Writable host s a.output)
    (delivered : IsDelivered host a code delivery s s') :
    Shows host a ⟨ds, some code⟩ ((⟨0, ds, delivery⟩ : Report).outcome label (a.has .json))
      s s' := by
  obtain ⟨report, prints⟩ := prints_reportLine placed 0 delivery
  unfold IsDelivered at delivered
  match output : a.output with
  | none =>
    simp only [output] at delivered
    obtain ⟨unchanged, place⟩ := delivered
    refine ⟨Report.exitCode_outcome _ _ _, fun plain => ?_, fun json => ?_, ?_⟩
    · rw [plain, if_neg Bool.false_ne_true] at place
      obtain ⟨text, rfl, rfl⟩ := place
      rw [Report.err_outcome, Report.out_outcome, plain, output]
      exact ⟨rfl, rfl⟩
    · rw [json, if_pos rfl] at place
      subst place
      rw [Report.err_outcome, Report.out_outcome, json, output]
      exact ⟨rfl, report, prints⟩
    · simp only [output]
      exact unchanged
  | some .nothing =>
    rw [output] at writable
    exact writable.elim
  | some (.text path) =>
    simp only [output] at delivered
    obtain ⟨rfl, text, is, stores⟩ := delivered
    rw [output] at writable
    refine ⟨Report.exitCode_outcome _ _ _, fun plain => ?_, fun json => ?_, ?_⟩
    · rw [Report.err_outcome, Report.out_outcome, plain, output]
      exact ⟨rfl, rfl⟩
    · rw [Report.err_outcome, Report.out_outcome, json, output]
      exact ⟨rfl, report, prints⟩
    · simp only [output]
      exact ⟨text, is, stores.read writable.2.2⟩

/-! ## Runs -/

/-- A command line that gives a text by one channel, and asks for the code by one that is
there. -/
structure Passes {σ : Type} (host : Host (StateM σ)) (s : σ) (text : String)
    (bytes : List UInt8) (args : List String) (a : Arguments) : Prop where
  /-- Its arguments. -/
  parsed : parse args = .run a
  /-- The text is where they say. -/
  source : (Input.ofArguments a).Holds host s bytes text
  /-- The code can go where they say. -/
  output : Writable host s a.output

/-- How a run with a finding ends that starts in the state `s`.  It shows the finding, unless the
code has no encoding and goes where it needs one.  Then it breaks off. -/
def Ends {σ : Type} (host : Host (StateM σ)) (s : σ) (bytes : List UInt8) (args : List String)
    (a : Arguments) (f : Finding) : Prop :=
  match f.obstacle? a with
  | none => ∃ o s', (run (host.withInput bytes) args).run s = (.ok o, s') ∧ Shows host a f o s s'
  | some fault => ∃ s', (run (host.withInput bytes) args).run s = (.error (.unencodable fault), s')

variable {text : String} {bytes : List UInt8} {args : List String}

/-- A file that can be opened and takes what is written to it gets code that has an encoding. -/
theorem writeCode_of_takes {p : Path} (code : LooseText) {opened : σ}
    (created : (host.create p).run s = (.ok (), opened)) (takes : host.Takes p) :
    match code.fault? with
    | none => ∃ text after, code = .ofString text ∧
        (writeCode host p code).run s = (.ok (.ok ()), after) ∧ Stores host p text s after
    | some fault => (writeCode host p code).run s = (.error (.unencodable fault), opened) := by
  cases fault : code.fault? with
  | some fault' =>
    have noText : code.encode = .error fault' := by rw [LooseText.encode, fault]
    simp only [writeCode]
    rw [run_bind_of created]
    simp only [noText]
    rfl
  | none =>
    obtain ⟨text, rfl⟩ := LooseText.eq_ofString_of_fault? fault
    obtain ⟨after, wrote, -⟩ := takes s opened created text
    refine ⟨text, after, rfl, ?_, .of_wrote created wrote⟩
    simp only [writeCode]
    rw [run_bind_of created]
    simp only [LooseText.encode_eq_ok_iff.mpr rfl]
    rw [run_bind_of wrote]
    rfl

/-- Code is delivered to an output that can be had, unless it has no encoding there. -/
theorem deliver_of_writable (writable : Writable host s a.output) (code : LooseText)
    (ds : List Diagnostic) :
    match (⟨ds, some code⟩ : Finding).obstacle? a with
    | none => ∃ delivery s', (deliver host a code ds).run s = (.ok ⟨0, ds, delivery⟩, s') ∧
        IsDelivered host a code delivery s s'
    | some fault => ∃ s', (deliver host a code ds).run s =
        (.error (.unencodable fault), s') := by
  unfold IsDelivered
  rw [Finding.obstacle?, deliver]
  rcases output : a.output with _ | path | _
  case some.nothing =>
    rw [output] at writable
    exact writable.elim
  case none =>
    cases json : a.has .json with
    | true => exact ⟨_, s, rfl, rfl, rfl⟩
    | false =>
      simp only [Bool.false_and, Bool.false_eq_true, if_false, Option.bind_some]
      cases fault : code.fault? with
      | some fault' =>
        have noText : code.encode = .error fault' := by rw [LooseText.encode, fault]
        rw [noText]
        exact ⟨s, rfl⟩
      | none =>
        obtain ⟨text, rfl⟩ := LooseText.eq_ofString_of_fault? fault
        rw [LooseText.encode_eq_ok_iff.mpr rfl]
        exact ⟨_, s, rfl, rfl, text, rfl, rfl⟩
  case some.text =>
    rw [output] at writable
    obtain ⟨noNull, created, takes⟩ := writable
    have opened : (host.create (.ofText path)).run s =
        (.ok (), ((host.create (.ofText path)).run s).2) := Prod.ext created rfl
    have wrote := writeCode_of_takes code opened takes
    simp only [Option.isNone_some, Bool.and_false, Bool.false_eq_true, if_false,
      Option.bind_some, noNull]
    cases fault : code.fault? with
    | some fault' =>
      simp only [fault] at wrote
      rw [run_bind_of wrote]
      exact ⟨_, rfl⟩
    | none =>
      simp only [fault] at wrote
      obtain ⟨text, after, is, wrote, stores⟩ := wrote
      rw [run_bind_of wrote]
      exact ⟨_, after, rfl, rfl, text, is, stores⟩

/-- Settings do not come from the standard input. -/
theorem loadSettings_withInput (faithful : host.Faithful) (bytes : List UInt8)
    (config : Option OptionValue) : (loadSettings (host.withInput bytes) config).run s =
      (((loadSettings host config).run s).1, s) :=
  Prod.ext rfl (isReading_loadSettings faithful config s)

/-- A run whose settings cannot be had comes to nothing. -/
theorem run_breaks (faithful : host.Faithful) (parsed : parse args = .run a) {b : Breakdown}
    (broken : ((loadSettings host a.config).run s).1 = .error (.breakdown b)) :
    (run (host.withInput bytes) args).run s = (.error b, s) := by
  have load := loadSettings_withInput (s := s) faithful bytes a.config
  rw [broken] at load
  exact run_of_breakdown parsed load

/-- A run that fails shows its errors, whatever its channels. -/
theorem ends_failure (placed : ∀ d ∈ ds, d.IsPlaced (Input.ofArguments a).label)
    (ran : (run (host.withInput bytes) args).run s =
      (.ok ((⟨1, ds, .nowhere⟩ : Report).outcome (Input.ofArguments a).label (a.has .json)), s)) :
    Ends host s bytes args a ⟨ds, none⟩ := by
  have free : (⟨ds, none⟩ : Finding).obstacle? a = none := ite_self _
  rw [Ends, free]
  exact ⟨_, s, ran, shows_failure placed⟩

/-- A run ends with what it comes to. -/
theorem run_ends (faithful : host.Faithful) (noReturn : '\r' ∉ text.toList)
    (passes : Passes host s text bytes args a) {f : Finding}
    (found : finding a ((loadSettings host a.config).run s).1 text = .ok f) :
    Ends host s bytes args a f := by
  have load := loadSettings_withInput (s := s) faithful bytes a.config
  have source := Input.load_of_holds faithful noReturn passes.source
  unfold finding at found
  cases loaded : ((loadSettings host a.config).run s).1 with
  | error failed =>
    rw [loaded] at load found
    cases failed with
    | breakdown b => cases found
    | problem p =>
      cases found
      refine ends_failure (fun d mem => ?_) (run_of_problem passes.parsed load)
      rw [List.mem_singleton.mp mem]
      exact .inl (file_of_problem host a.config s p loaded)
  | ok settings =>
    rw [loaded] at load found
    dsimp only at found
    cases read : SourceFile.read text (some (Input.ofArguments a).fileName) with
    | error d =>
      rw [read] at source found
      cases found
      have reported : (report (host.withInput bytes) a).run s =
          (.ok ⟨1, [d], .nowhere⟩, s) := by
        rw [report, run_bind_of load]
        simp only
        rw [run_bind_of source]
        rfl
      refine ends_failure (fun e mem => ?_) (run_of_report passes.parsed reported)
      rw [List.mem_singleton.mp mem]
      exact .inl (file_of_read (Input.fileName_ne_empty _) read)
    | ok f =>
      rw [read] at source found
      cases found
      have delivery := deliver_of_writable passes.output (codeOf a settings f)
        (warningsOf f (a.effectiveOptions settings) settings (Input.ofArguments a).label)
      -- Delivering code asks nothing of the standard input.
      have same : deliver host = deliver (host.withInput bytes) := rfl
      rw [same, ← report_of_reads load source] at delivery
      rw [Ends]
      split at delivery
      next =>
        obtain ⟨delivery, s', reported, delivered⟩ := delivery
        exact ⟨_, s', run_of_report passes.parsed reported, shows_success
          (fun d mem => isPlaced_warningsOf (SourceFile.filename_of_read read)
            (Input.fileName_ne_empty _) mem) passes.output delivered⟩
      next =>
        obtain ⟨s', broken⟩ := delivery
        exact ⟨s', run_of_broken passes.parsed broken⟩

/-- With settings without halves a run shows what it comes to, whatever its channels. -/
theorem run_shows (faithful : host.Faithful) (noReturn : '\r' ∉ text.toList)
    (passes : Passes host s text bytes args a) {settings : Settings}
    (loaded : ((loadSettings host a.config).run s).1 = .ok (.ofSettings settings)) :
    ∃ f o s', (run (host.withInput bytes) args).run s = (.ok o, s') ∧ Shows host a f o s s' := by
  obtain ⟨f, found, free⟩ : ∃ f, finding a (.ok (.ofSettings settings)) text = .ok f ∧
      f.obstacle? a = none := by
    cases read : SourceFile.read text (some (Input.ofArguments a).fileName) with
    | error d =>
      exact ⟨⟨[d], none⟩, by simp only [finding, read], ite_self _⟩
    | ok f =>
      refine ⟨_, finding_of_read read, ?_⟩
      rw [Finding.obstacle?, codeOf, SourceFile.looseCode_ofSettings, Option.bind_some,
        LooseText.fault?_ofString, ite_self]
  rw [← loaded] at found
  have ends := run_ends faithful noReturn passes found
  rw [Ends, free] at ends
  exact ⟨f, ends⟩

/-- A text comes to the same whatever the channels.  Take two command lines that ask for the same
features with the same configuration, and that both give the text, each as the content itself, in
a file or on the standard input.  Each shows its code, with or without `--json`, or writes it to a
file that it can write to.  Then reading the configuration breaks both runs off, or both have the
same exit code and the same code, and their diagnostics are the same but for their files.  If the
text is in the same place for both, the diagnostics are the same altogether.

What each run shows of its findings is `Shows`: in particular a report for programs has the lines
that are on the standard error without `--json`.  Both runs show them if the code has an encoding.
If it has none, only a run that reports the code to programs does, and any other breaks off. -/
theorem run_channels (faithful : host.Faithful) (noReturn : '\r' ∉ text.toList)
    {bytes' : List UInt8} {args' : List String} {a' : Arguments}
    (first : Passes host s text bytes args a) (second : Passes host s text bytes' args' a')
    (agrees : a.Agrees a') :
    (∃ b, ((loadSettings host a.config).run s).1 = .error (.breakdown b) ∧
      (run (host.withInput bytes) args).run s = (.error b, s) ∧
      (run (host.withInput bytes') args').run s = (.error b, s)) ∨
    ∃ f f', Ends host s bytes args a f ∧ Ends host s bytes' args' a' f' ∧
      f.exitCode = f'.exitCode ∧ f.code = f'.code ∧
      f.diagnostics.map Diagnostic.unlabelled = f'.diagnostics.map Diagnostic.unlabelled ∧
      (Input.ofArguments a = Input.ofArguments a' → f = f') := by
  rcases finding_agrees agrees ((loadSettings host a.config).run s).1 text with
    ⟨b, broken⟩ | ⟨f, f', found, found', code, diagnostics⟩
  · exact .inl ⟨b, broken, run_breaks faithful first.parsed broken,
      run_breaks faithful second.parsed (agrees.config ▸ broken)⟩
  · have exitCode : f.exitCode = f'.exitCode := by
      rw [Finding.exitCode, Finding.exitCode, code]
    refine .inr ⟨f, f', run_ends faithful noReturn first found,
      run_ends faithful noReturn second (agrees.config ▸ found'), exitCode, code, diagnostics,
      fun same => ?_⟩
    rw [finding_congr agrees same, found'] at found
    exact (Except.ok.inj found).symm

/-- A class that gets a warning. -/
def classText : String := "class C \x7b let a: Int \x7d"

/-- The arguments of a run on the text itself with a report for programs. -/
def inlineArguments : Arguments where
  content := some classText
  flags := [.json, .codable, .inline]

/-- The arguments of a run on the standard input that writes to a file. -/
def pipedArguments : Arguments where
  content := some "-"
  flags := [.codable]
  output := some (.text "C.swift")

theorem run_channels_inline_piped :
    ∃ f f' o o' t t',
      (run (FileTree.host [] (.ofText "/") []) ["-I", classText, "--codable", "--json"]).run ⟨[]⟩ =
        (.ok o, t) ∧
      Shows (FileTree.host [] (.ofText "/") []) inlineArguments f o ⟨[]⟩ t ∧
      (run (FileTree.host [] (.ofText "/") classText.toUTF8.toList)
        ["-", "--codable", "-o", "C.swift"]).run ⟨[]⟩ = (.ok o', t') ∧
      Shows (FileTree.host [] (.ofText "/") []) pipedArguments f' o' ⟨[]⟩ t' ∧
      f.exitCode = f'.exitCode ∧ f.code = f'.code ∧
      f.diagnostics.map Diagnostic.unlabelled = f'.diagnostics.map Diagnostic.unlabelled := by
  have inline : Passes (FileTree.host [] (.ofText "/") []) ⟨[]⟩ classText []
      ["-I", classText, "--codable", "--json"] inlineArguments :=
    ⟨by decide, rfl, trivial⟩
  have piped : Passes (FileTree.host [] (.ofText "/") []) ⟨[]⟩ classText
      classText.toUTF8.toList ["-", "--codable", "-o", "C.swift"] pipedArguments :=
    ⟨by decide, rfl, by decide, rfl, FileTree.host_takes _ _ _ _⟩
  have agrees : inlineArguments.Agrees pipedArguments := ⟨rfl, rfl, rfl⟩
  have faithful := FileTree.host_faithful [] (.ofText "/") []
  have loaded : ((loadSettings (FileTree.host [] (.ofText "/") []) none).run ⟨[]⟩).1 =
      .ok (.ofSettings {}) := by decide +kernel
  rcases run_channels faithful (by decide) inline piped agrees
    with ⟨b, broken, -⟩ | ⟨f, f', one, other, exitCode, code, same, -⟩
  · cases loaded.symm.trans broken
  · obtain ⟨o, t, ran, shows'⟩ := one
    obtain ⟨-, o', t', ran', -⟩ := run_shows faithful (by decide) piped loaded
    unfold Ends at other
    split at other
    · obtain ⟨o', t', ran', shows''⟩ := other
      rw [FileTree.withInput_host] at ran ran'
      exact ⟨f, f', o, o', t, t', ran, shows', ran', shows'', exitCode, code, same⟩
    · obtain ⟨t'', broken⟩ := other
      cases ran'.symm.trans broken

/-- A structure with a field whose type is not written. -/
def untypedText : String := "struct S \x7b let a \x7d"

/-- The arguments of a run on the text itself that reports the code to programs. -/
def reportingArguments : Arguments where
  content := some untypedText
  flags := [.json, .codable, .inline]

/-- The arguments of a run on the text itself that writes the code to a file. -/
def filingArguments : Arguments where
  content := some untypedText
  flags := [.codable, .inline]
  output := some (.text "S.swift")

/-- A configuration that puts half of a surrogate pair in place of a type. -/
def halfConfiguration : FileTree :=
  ⟨[(["swiftgen.json"], .file "\x7b\"unknown_type\": \"\\ud800\"\x7d".toUTF8.toList)]⟩

/-- The settings of that configuration. -/
def halfSettings : LooseSettings :=
  { LooseSettings.ofSettings {} with unknownType := ⟨[.half (.ofUnit 0xD800)]⟩ }

/-- With these settings the code has no encoding. -/
theorem finding_half : ∃ f code, finding filingArguments (.ok halfSettings) untypedText = .ok f ∧
    f.code = some code ∧ code.fault? ≠ none := by
  let code (f : SourceFile) (stand : Half → Char) : String :=
    renderUnits (f.units (filingArguments.effectiveOptions halfSettings) (halfSettings.fill stand))
  have seen : (SourceFile.read untypedText (some "<inline>")).toOption.map
      (fun f => code f Half.oneStand == code f Half.otherStand) = some false := by decide +kernel
  obtain ⟨f, read, differ⟩ := exists_ok_of _ seen
  refine ⟨_, _, finding_of_read read, rfl, fun none => ?_⟩
  have isCode := isCode_codeOf filingArguments halfSettings f
  have same : code f Half.oneStand = code f Half.otherStand :=
    (isCode _).symm.trans ((LooseText.fill_eq_of_fault? none _ _).trans (isCode _))
  simp [same] at differ

/-- With such a configuration the channels out differ: a report for programs succeeds, and for a
file that can be written the run breaks off. -/
theorem run_channels_half :
    Passes (FileTree.host [] (.ofText "/") []) halfConfiguration untypedText []
      ["-I", untypedText, "--codable", "--json"] reportingArguments ∧
    Passes (FileTree.host [] (.ofText "/") []) halfConfiguration untypedText []
      ["-I", untypedText, "--codable", "-o", "S.swift"] filingArguments ∧
    reportingArguments.Agrees filingArguments ∧
    (∃ o t, (run (FileTree.host [] (.ofText "/") [])
      ["-I", untypedText, "--codable", "--json"]).run halfConfiguration = (.ok o, t) ∧
        o.exitCode = 0) ∧
    ∃ fault t, (run (FileTree.host [] (.ofText "/") [])
      ["-I", untypedText, "--codable", "-o", "S.swift"]).run halfConfiguration =
        (.error (.unencodable fault), t) := by
  have reporting : Passes (FileTree.host [] (.ofText "/") []) halfConfiguration untypedText []
      ["-I", untypedText, "--codable", "--json"] reportingArguments :=
    ⟨by decide, rfl, trivial⟩
  have filing : Passes (FileTree.host [] (.ofText "/") []) halfConfiguration untypedText []
      ["-I", untypedText, "--codable", "-o", "S.swift"] filingArguments :=
    ⟨by decide, rfl, by decide, rfl, FileTree.host_takes _ _ _ _⟩
  have agrees : reportingArguments.Agrees filingArguments := ⟨rfl, rfl, rfl⟩
  have loaded : ((loadSettings (FileTree.host [] (.ofText "/") []) none).run
      halfConfiguration).1 = .ok halfSettings := by decide +kernel
  have faithful := FileTree.host_faithful [] (.ofText "/") []
  obtain ⟨f, code, found, is, fault⟩ := finding_half
  rw [← loaded] at found
  obtain ⟨fault, isFault⟩ := Option.ne_none_iff_exists'.mp fault
  refine ⟨reporting, filing, agrees, ?_, ?_⟩
  · have ends := run_ends faithful (by decide) reporting
      ((finding_congr agrees rfl _ _).trans found)
    obtain ⟨o, t, ran, shows'⟩ := ends
    rw [FileTree.withInput_host] at ran
    refine ⟨o, t, ran, ?_⟩
    rw [shows'.exitCode, Finding.exitCode, is]
    rfl
  · have ends := run_ends faithful (by decide) filing found
    have obstacle : f.obstacle? filingArguments = some fault := by
      rw [Finding.obstacle?, is]
      exact isFault
    rw [Ends, obstacle, FileTree.withInput_host] at ends
    exact ⟨fault, ends⟩

end Command

end Conformance
