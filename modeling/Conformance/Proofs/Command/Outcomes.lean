import Conformance.Command.Run
import Conformance.FileTree
import Conformance.Proofs.Command.Host
import Conformance.Proofs.Model.LooseCode

/-!
# How runs end

A run with a source ends in one of two ways.  It fails with the exit code 1, reports an
error, and leaves every file as it was and no code anywhere.  Or it succeeds with the exit
code 0, reports no more than warnings, and its code is in one place: in the file that it was
told to write, or else on the standard output, by itself or as a member of the report
(`Command.run_outcome`).

Reading the settings and the source has no effects, so only the delivery of the code can
change a file, and it comes last.  Where it fails, the file was not opened, unless the file does
not take what is written to it.

The code is a loose text.  A report for programs holds any, the other places only strings.
-/

namespace Conformance

/-! ## Severities -/

/-- The diagnostic of a source that cannot be read is an error. -/
theorem SourceFile.isError_of_read {text : String} {filename : Option String} {d : Diagnostic}
    (failed : read text filename = .error d) : d.isError = true := by
  rw [read] at failed
  cases syntax' : readSyntax text.toList with
  | ok items => simp [syntax'] at failed
  | error f =>
    simp only [syntax', Except.error.injEq] at failed
    rw [← failed]
    rfl

theorem SourceFile.isError_of_ofBytes {bytes : List UInt8} {p : Path} {d : Diagnostic}
    (failed : ofBytes bytes p = .error d) : d.isError = true := by
  rw [ofBytes] at failed
  split at failed
  next => exact isError_of_read failed
  next =>
    cases failed
    rfl

namespace Command

variable {σ : Type} {host : Host (StateM σ)} {s s' : σ}

theorem isReading_settingsLoad (faithful : host.Faithful) (p : Path) :
    IsReading (Settings.load host p) := by
  unfold Settings.load
  split
  · exact .pure _
  · refine .bind (faithful.read p) fun r => ?_
    split <;> exact .pure _

theorem isReading_loadSettings (faithful : host.Faithful) (config : Option OptionValue) :
    IsReading (loadSettings host config) := by
  unfold loadSettings Settings.resolve
  split
  · dsimp only
    split
    · exact .pure _
    · refine .bind (faithful.isFile _) fun r => ?_
      split
      · exact isReading_settingsLoad faithful _
      · exact .pure _
      · exact .pure _
  · exact isReading_settingsLoad faithful _
  · exact .pure _

theorem isReading_load (faithful : host.Faithful) (i : Input) : IsReading (i.load host) := by
  cases i with
  | inline source => exact .pure _
  | standardInput =>
    refine .bind faithful.standardInput fun bytes => ?_
    split <;> exact .pure _
  | file path =>
    unfold Input.load SourceFile.load
    dsimp only
    split
    · exact .pure _
    · refine .bind (faithful.read _) fun r => ?_
      split <;> exact .pure _

/-! ## Reports -/

/-- A run in a state reads settings and a source. -/
structure Reads (host : Host (StateM σ)) (a : Arguments) (s : σ) (settings : LooseSettings)
    (f : SourceFile) : Prop where
  /-- The settings. -/
  settings : ((loadSettings host a.config).run s).1 = .ok settings
  /-- The source. -/
  source : (((Input.ofArguments a).load host).run s).1 = .ok (.ok f)

/-- The code for a source with some settings. -/
def codeOf (a : Arguments) (settings : LooseSettings) (f : SourceFile) : LooseText :=
  f.looseCode (a.effectiveOptions settings) settings

/-- A text is the code for a source with some settings: with something in place of each half it is
what is generated with that in place of the halves of the settings. -/
def IsCode (a : Arguments) (settings : LooseSettings) (f : SourceFile) (code : LooseText) : Prop :=
  ∀ stand, code.fill stand =
    renderUnits (f.units (a.effectiveOptions settings) (settings.fill stand))

theorem isCode_codeOf (a : Arguments) (settings : LooseSettings) (f : SourceFile) :
    IsCode a settings f (codeOf a settings f) := fun stand => f.fill_looseCode _ settings stand

/-- The file for the code, if one is asked for, takes what is written to it. -/
def Arguments.TakesOutput (a : Arguments) (host : Host (StateM σ)) : Prop :=
  ∀ path, a.output = some (.text path) → host.Takes (.ofText path)

/-- A report of errors, without code. -/
structure Report.IsFailure (r : Report) : Prop where
  /-- The exit code of a failure. -/
  exitCode : r.exitCode = 1
  /-- There is an error. -/
  error : ∃ d ∈ r.diagnostics, d.isError = true
  /-- There is no code. -/
  delivery : r.delivery = .nowhere

theorem isError_of_load (host : Host (StateM σ)) (i : Input) :
    Gives (i.load host) fun r => ∀ d, r = .ok (.error d) → d.isError = true := by
  cases i with
  | inline source =>
    exact .pure fun d failed => SourceFile.isError_of_read (Except.ok.inj failed)
  | standardInput =>
    refine .bind fun bytes => ?_
    split
    · exact .pure fun d failed => SourceFile.isError_of_read (Except.ok.inj failed)
    · exact .pure fun d failed => nomatch failed
  | file path =>
    unfold Input.load SourceFile.load
    dsimp only
    split
    · exact .pure fun d failed => nomatch failed
    · refine .bind fun r => ?_
      split
      · exact .pure fun d failed => SourceFile.isError_of_ofBytes (Except.ok.inj failed)
      · refine .pure fun d failed => ?_
        cases failed
        rfl

/-- A string is in a file: it was opened and took the string, and then the string can be read. -/
structure Stores (host : Host (StateM σ)) (p : Path) (text : String) (s s' : σ) : Prop where
  /-- The file was opened and written. -/
  wrote : ∃ opened, (host.create p).run s = (.ok (), opened) ∧
    (host.write p text).run opened = (.ok (), s')
  /-- The text is there. -/
  read : host.Takes p → ((host.read p).run s').1 = .ok text.toUTF8.toList

/-- A file that was opened and written holds the text if it takes what is written to it. -/
theorem Stores.of_wrote {p : Path} {text : String} {opened : σ}
    (created : (host.create p).run s = (.ok (), opened))
    (wrote : (host.write p text).run opened = (.ok (), s')) : Stores host p text s s' where
  wrote := ⟨opened, created, wrote⟩
  read takes := by
    obtain ⟨after, again, read⟩ := takes s opened created text
    obtain rfl : s' = after := congrArg Prod.snd (wrote.symm.trans again)
    exact read

/-- Where code is once it is delivered: the code is shown or reported and nothing changes, or it is
in a file. -/
def IsDelivered (host : Host (StateM σ)) (a : Arguments) (code : LooseText) (delivery : Delivery)
    (s s' : σ) : Prop :=
  match a.output with
  | none => s' = s ∧
    if a.has .json then delivery = .reported code
    else ∃ text, code = .ofString text ∧ delivery = .shown text
  | some (.text path) => delivery = .written (Path.ofText path).text ∧
    ∃ text, code = .ofString text ∧ Stores host (.ofText path) text s s'
  | some .nothing => False

/-- Code that is written to a file is a string and in the file, or the file fails.  Then nothing
changes if the file takes what is written to it. -/
theorem writeCode_cases (faithful : host.Faithful) {p : Path} {code : LooseText}
    {result : Except FileFault Unit} (ran : (writeCode host p code).run s = (.ok result, s')) :
    (result = .ok () ∧ ∃ text, code = .ofString text ∧ Stores host p text s s') ∨
    ∃ f, result = .error f ∧ (host.Takes p → s' = s) := by
  rw [writeCode] at ran
  cases created : (host.create p).run s with
  | mk first opened =>
    rw [run_bind_of created] at ran
    cases first with
    | error f =>
      obtain ⟨rfl, rfl⟩ := eq_of_ended ran
      exact .inr ⟨f, rfl, fun _ => faithful.create_error _ _ _ _ created⟩
    | ok =>
      cases encoded : code.encode with
      | error f =>
        simp only [encoded] at ran
        cases ran
      | ok text =>
        simp only [encoded] at ran
        cases wrote : (host.write p text).run opened with
        | mk second after =>
          rw [run_bind_of wrote] at ran
          obtain ⟨rfl, rfl⟩ := eq_of_ended ran
          cases result with
          | ok =>
            exact .inl ⟨rfl, text, LooseText.encode_eq_ok_iff.mp encoded,
              .of_wrote created wrote⟩
          | error f =>
            refine .inr ⟨f, rfl, fun takes => ?_⟩
            obtain ⟨after, again, -⟩ := takes s opened created text
            cases wrote.symm.trans again

/-- A delivery of code fails, or succeeds with the diagnostics that there are and delivers the code.
If it fails, nothing changes if the file takes what is written to it. -/
theorem deliver_cases (faithful : host.Faithful) {a : Arguments} {code : LooseText}
    {ds : List Diagnostic} {r : Report} (ran : (deliver host a code ds).run s = (.ok r, s')) :
    (r.IsFailure ∧ (a.TakesOutput host → s' = s)) ∨
    ∃ delivery, r = ⟨0, ds, delivery⟩ ∧ IsDelivered host a code delivery s s' := by
  rw [deliver] at ran
  unfold IsDelivered
  match output : a.output with
  | none =>
    simp only [output] at ran ⊢
    cases json : a.has .json with
    | true =>
      rw [json] at ran
      obtain ⟨rfl, rfl⟩ := eq_of_ended ran
      exact .inr ⟨_, rfl, rfl, rfl⟩
    | false =>
      simp only [json, Bool.false_eq_true, if_false] at ran
      cases encoded : code.encode with
      | error f =>
        simp only [encoded] at ran
        cases ran
      | ok text =>
        simp only [encoded] at ran
        obtain ⟨rfl, rfl⟩ := eq_of_ended ran
        exact .inr ⟨_, rfl, rfl, text, LooseText.encode_eq_ok_iff.mp encoded, rfl⟩
  | some .nothing =>
    simp only [output] at ran
    cases ran
  | some (.text path) =>
    simp only [output] at ran ⊢
    split at ran
    next => cases ran
    next =>
      cases wrote : (writeCode host (.ofText path) code).run s with
      | mk result after =>
        rw [run_bind_of wrote] at ran
        cases result with
        | error b => cases ran
        | ok result =>
          rcases writeCode_cases faithful wrote with ⟨rfl, text, is, stores⟩ | ⟨f, rfl, unchanged⟩
          · obtain ⟨rfl, rfl⟩ := eq_of_ended ran
            exact .inr ⟨_, rfl, rfl, text, is, stores⟩
          · obtain ⟨rfl, rfl⟩ := eq_of_ended ran
            have error : ∃ d ∈ ds ++ [outputError f (.ofText path)], d.isError = true :=
              ⟨_, List.mem_append_right _ (.head _), rfl⟩
            exact .inl ⟨⟨rfl, error, rfl⟩, fun takes => unchanged (takes path output)⟩

/-- A report with arguments is of a failure, or of a success with the warnings about what was read,
and then the code for it is delivered.  A failure changes nothing if the file for the code takes
what is written to it. -/
theorem report_cases (faithful : host.Faithful) {a : Arguments} {r : Report}
    (ran : (report host a).run s = (.ok r, s')) :
    (r.IsFailure ∧ (a.TakesOutput host → s' = s)) ∨
    ∃ settings f delivery, Reads host a s settings f ∧
      r = ⟨0, warningsOf f (a.effectiveOptions settings) settings (Input.ofArguments a).label,
        delivery⟩ ∧ IsDelivered host a (codeOf a settings f) delivery s s' := by
  unfold report at ran
  rw [(isReading_loadSettings faithful a.config).run_bind] at ran
  cases settings : ((loadSettings host a.config).run s).1 with
  | error failure =>
    rw [settings] at ran
    cases failure with
    | breakdown b => cases ran
    | problem p =>
      obtain ⟨rfl, rfl⟩ := eq_of_ended ran
      exact .inl ⟨⟨rfl, ⟨_, .head _, rfl⟩, rfl⟩, fun _ => rfl⟩
  | ok settings' =>
    rw [settings] at ran
    dsimp only at ran
    rw [(isReading_load faithful _).run_bind] at ran
    cases source : (((Input.ofArguments a).load host).run s).1 with
    | error b =>
      rw [source] at ran
      cases ran
    | ok result =>
      rw [source] at ran
      cases result with
      | error d =>
        obtain ⟨rfl, rfl⟩ := eq_of_ended ran
        exact .inl ⟨⟨rfl, ⟨d, .head _, isError_of_load host _ _ d source⟩, rfl⟩, fun _ => rfl⟩
      | ok f =>
        rcases deliver_cases faithful ran with failed | ⟨delivery, is, delivered⟩
        · exact .inl failed
        · exact .inr ⟨settings', f, delivery, ⟨settings, source⟩, is, delivered⟩

/-! ## Runs -/

/-- A report for programs, with a line feed behind it. -/
def reportLine (exitCode : Nat) (ds : List Diagnostic) (source : String)
    (members : List (LooseText × Json)) : String :=
  (Json.object (("exit_code", .integer exitCode) ::
    ("diagnostics", .array (ds.map fun d => d.toJson source)) :: members)).print ++ "\n"

/-- The lines of diagnostics for people. -/
def diagnosticLines (ds : List Diagnostic) : String :=
  String.join (ds.map fun d => d.human ++ "\n")

namespace Report

variable (r : Report) (source : String) (asJson : Bool)

theorem exitCode_outcome : (r.outcome source asJson).exitCode = r.exitCode := by
  unfold outcome
  split <;> rfl

theorem err_outcome : (r.outcome source asJson).err =
    if asJson then "" else diagnosticLines r.diagnostics := by
  unfold outcome
  split <;> rfl

theorem out_outcome : (r.outcome source asJson).out =
    if asJson then reportLine r.exitCode r.diagnostics source r.delivery.members
    else r.delivery.out := by
  unfold outcome
  split <;> rfl

end Report

section
variable {args : List String} {a : Arguments}

theorem run_of_report {r : Report} (parsed : parse args = .run a)
    (reported : (report host a).run s = (.ok r, s')) :
    (run host args).run s =
      (.ok (r.outcome (Input.ofArguments a).label (a.has .json)), s') := by
  rw [run, parsed]
  simp only
  rw [run_bind_of reported]
  rfl

theorem run_of_broken {b : Breakdown} (parsed : parse args = .run a)
    (broken : (report host a).run s = (.error b, s')) :
    (run host args).run s = (.error b, s') := by
  rw [run, parsed]
  simp only
  rw [run_bind_of broken]
  rfl

/-- A run that does not break off shows a report. -/
theorem exists_report_of_run {o : Outcome} (parsed : parse args = .run a)
    (ran : (run host args).run s = (.ok o, s')) :
    ∃ r, (report host a).run s = (.ok r, s') ∧
      o = r.outcome (Input.ofArguments a).label (a.has .json) := by
  cases reported : (report host a).run s with
  | mk result after =>
    cases result with
    | error b => cases (run_of_broken parsed reported).symm.trans ran
    | ok r =>
      obtain ⟨rfl, rfl⟩ := eq_of_ended ((run_of_report parsed reported).symm.trans ran)
      exact ⟨r, rfl, rfl⟩

end

end Command

end Conformance
