import Conformance.Proofs.Command.Outcomes
import Conformance.Proofs.Json.LongIntegers
import Conformance.Proofs.Text.Utf8

/-!
# Configuration files

Whatever the bytes of a configuration file are, a run that reads it ends in one of three ways
(`Command.run_configuration`).  There are settings; or there is a problem, which is all that the
run reports, with the exit code 1; or the run breaks off.

It breaks off for two kinds of files only: those that are not UTF-8, and those in which the
reader comes upon an integer with more digits than it converts.
-/

namespace Conformance

/-! ## Line ends -/

namespace Text

theorem prefix_of_unifyLineEnds {ds cs : List Char} (ink : '\n' ∉ ds)
    (front : ds <+: unifyLineEnds cs) : ds <+: cs := by
  induction cs using unifyLineEnds.induct generalizing ds with
  | case1 => exact front
  | case2 cs ih =>
    cases ds with
    | nil => exact List.nil_prefix
    | cons d ds =>
      rw [unifyLineEnds, List.cons_prefix_cons] at front
      simp [front.1] at ink
  | case3 c cs other ih =>
    cases ds with
    | nil => exact List.nil_prefix
    | cons d ds =>
      rw [unifyLineEnds, List.cons_prefix_cons] at front
      · obtain ⟨first, front⟩ := front
        have same : d = c := by
          split at first
          · simp [first] at ink
          · exact first
        exact List.cons_prefix_cons.mpr ⟨same, ih (by simp_all) front⟩
      · exact other

/-- What stands within a line stands in the text that the line is from. -/
theorem infix_of_unifyLineEnds {ds cs : List Char} (ink : '\n' ∉ ds)
    (inside : ds <:+: unifyLineEnds cs) : ds <:+: cs := by
  by_cases empty : ds = []
  · exact empty ▸ List.nil_infix
  induction cs using unifyLineEnds.induct with
  | case1 => exact inside
  | case2 cs ih =>
    rw [unifyLineEnds, List.infix_cons_iff] at inside
    rcases inside with front | behind
    · have whole : ds <+: unifyLineEnds ('\r' :: '\n' :: cs) := by rwa [unifyLineEnds]
      exact (prefix_of_unifyLineEnds ink whole).isInfix
    · exact List.infix_cons (List.infix_cons (ih behind))
  | case3 c cs other ih =>
    have same : unifyLineEnds (c :: cs) = (if c = '\r' then '\n' else c) :: unifyLineEnds cs := by
      rw [unifyLineEnds]
      exact other
    by_cases front : ds <+: unifyLineEnds (c :: cs)
    · exact (prefix_of_unifyLineEnds ink front).isInfix
    · rw [same, List.infix_cons_iff, ← same] at inside
      exact List.infix_cons (ih (inside.resolve_left front))

end Text

/-! ## Texts -/

/-- In a text the reader comes upon an integer with too many digits. -/
def Json.HasLongInteger (text : String) (count : Nat) : Prop :=
  ∃ l, parse (String.ofList (Text.unifyLineEnds text.toList)) = .error l ∧
    l.fault = .longInteger count

/-- So many digits in a row are in the text. -/
theorem Json.HasLongInteger.hasDigits {text : String} {count : Nat}
    (h : HasLongInteger text count) :
    integerDigitLimit < count ∧ HasDigits count text.toList := by
  obtain ⟨l, failed, long⟩ := h
  obtain ⟨more, ds, length, digits, inside⟩ := hasDigits_of_parse failed long
  rw [String.toList_ofList] at inside
  have ink : '\n' ∉ ds := fun mem => absurd (digits _ mem) (by decide)
  exact ⟨more, ds, length, digits, Text.infix_of_unifyLineEnds ink inside⟩

namespace Settings

/-- A problem is that a file is no configuration. -/
structure IsInvalid (p : Problem) (path : String) : Prop where
  /-- The code. -/
  code : p.code = "config-invalid"
  /-- The file. -/
  path : p.path = some path

theorem ofBytes_toUTF8 (text path : String) : ofBytes text.toUTF8.toList path =
    ofText (String.ofList (Text.unifyLineEnds text.toList)) path := by
  rw [ofBytes, Text.Utf8.decode_eq_ok_iff.mpr rfl]

/-- An integer with too many digits breaks reading off. -/
theorem ofBytes_longInteger {text : String} {count : Nat} (long : Json.HasLongInteger text count)
    (path : String) :
    ofBytes text.toUTF8.toList path = .error (.breakdown (.longInteger count)) := by
  obtain ⟨l, failed, fault⟩ := long
  rw [ofBytes_toUTF8, ofText, failed]
  simp only [fault]

/-- Any other text gives settings, or is no configuration. -/
theorem ofBytes_short {text : String} (short : ∀ count, ¬ Json.HasLongInteger text count)
    (path : String) :
    (∃ settings, ofBytes text.toUTF8.toList path = .ok settings) ∨
      ∃ p, IsInvalid p path ∧ ofBytes text.toUTF8.toList path = .error (.problem p) := by
  rw [ofBytes_toUTF8, ofText]
  cases read : Json.parse (String.ofList (Text.unifyLineEnds text.toList)) with
  | ok j =>
    cases checked : ofJson j with
    | ok settings => exact .inl ⟨settings, by dsimp only; rw [checked]; rfl⟩
    | error f =>
      exact .inr ⟨f.problem (some path), ⟨rfl, rfl⟩, by dsimp only; rw [checked]; rfl⟩
  | error l =>
    cases fault : l.fault with
    | longInteger count => exact absurd ⟨l, read, fault⟩ (short count)
    | _ => exact .inr ⟨.malformed l path, ⟨rfl, rfl⟩, by simp [fault]⟩

/-- The only problem with the bytes of a file is that they are no configuration. -/
theorem isInvalid_of_ofBytes {bytes : List UInt8} {path : String} {p : Problem}
    (failed : ofBytes bytes path = .error (.problem p)) : IsInvalid p path := by
  cases decoded : Text.Utf8.decode bytes with
  | error f =>
    rw [ofBytes, decoded] at failed
    cases failed
  | ok text =>
    obtain rfl := Text.Utf8.decode_eq_ok_iff.mp decoded
    by_cases long : ∃ count, Json.HasLongInteger text count
    · obtain ⟨count, long⟩ := long
      rw [ofBytes_longInteger long] at failed
      cases failed
    · rcases ofBytes_short (not_exists.mp long) path with ⟨settings, is⟩ | ⟨q, invalid, is⟩
      · rw [is] at failed
        cases failed
      · rw [is] at failed
        cases failed
        exact invalid

/-- Bytes that are those of no text break reading off. -/
theorem ofBytes_noText {bytes : List UInt8} (noText : ∀ text : String, bytes ≠ text.toUTF8.toList)
    (path : String) : ∃ f, ofBytes bytes path = .error (.breakdown (.undecodable f)) := by
  cases decoded : Text.Utf8.decode bytes with
  | ok text => exact absurd (Text.Utf8.decode_eq_ok_iff.mp decoded) (noText text)
  | error f => exact ⟨f, by rw [ofBytes, decoded]⟩

end Settings

/-! ## Runs -/

namespace Command

variable {σ : Type} {host : Host (StateM σ)} {s : σ} {args : List String} {a : Arguments}

/-- The file that a run takes its settings from: the one that is named, or the one with the usual
name in the directory of the run. -/
inductive TakesSettings (host : Host (StateM σ)) (s : σ) : Option OptionValue → Path → Prop
  | named {path : String} (noNull : (Path.ofText path).hasNull = false) :
      TakesSettings host s (some (.text path)) (.ofText path)
  | usual (noNull : (host.directory.child Settings.fileName).hasNull = false)
      (isFile : ((host.isFile (host.directory.child Settings.fileName)).run s).1 = .ok true) :
      TakesSettings host s none (host.directory.child Settings.fileName)

/-- What a run makes of its configuration file. -/
theorem loadSettings_of_takes (faithful : host.Faithful) {config : Option OptionValue} {p : Path}
    (takes : TakesSettings host s config p) :
    (loadSettings host config).run s = (match ((host.read p).run s).1 with
      | .ok bytes => Settings.ofBytes bytes p.text
      | .error f => .error (.problem (.unreadable f p.text)), s) := by
  have load {p : Path} (noNull : p.hasNull = false) :
      (Settings.load host p).run s = (match ((host.read p).run s).1 with
        | .ok bytes => Settings.ofBytes bytes p.text
        | .error f => .error (.problem (.unreadable f p.text)), s) := by
    rw [Settings.load, noNull]
    simp only [Bool.false_eq_true, if_false]
    rw [(faithful.read p).run_bind]
    cases ((host.read p).run s).1 <;> rfl
  cases takes with
  | named noNull => exact load noNull
  | usual noNull isFile =>
    simp only [loadSettings, Settings.resolve, noNull, Bool.false_eq_true, if_false]
    rw [(faithful.isFile _).run_bind, isFile]
    exact load noNull

/-- Where settings and a source are read, the run is left with delivering the code. -/
theorem report_of_reads {settings : LooseSettings} {f : SourceFile}
    (load : (loadSettings host a.config).run s = (.ok settings, s))
    (source : ((Input.ofArguments a).load host).run s = (.ok (.ok f), s)) :
    (report host a).run s = (deliver host a (codeOf a settings f)
      (warningsOf f (a.effectiveOptions settings) settings (Input.ofArguments a).label)).run s := by
  rw [report, run_bind_of load]
  simp only
  rw [run_bind_of source]
  rfl

/-- A run with a problem in its settings has nothing else to report. -/
theorem run_of_problem {p : Problem} (parsed : parse args = .run a)
    (problem : (loadSettings host a.config).run s = (.error (.problem p), s)) :
    (run host args).run s = (.ok ((⟨1, [p.diagnostic], .nowhere⟩ : Report).outcome
      (Input.ofArguments a).label (a.has .json)), s) := by
  refine run_of_report parsed ?_
  rw [report, run_bind_of problem]
  rfl

/-- A run whose settings cannot be had breaks off like reading them. -/
theorem run_of_breakdown {b : Breakdown} (parsed : parse args = .run a)
    (breakdown : (loadSettings host a.config).run s = (.error (.breakdown b), s)) :
    (run host args).run s = (.error b, s) := by
  refine run_of_broken parsed ?_
  rw [report, run_bind_of breakdown]
  rfl

/-- A run fails with one error about its configuration. -/
def FailsInConfiguration (host : Host (StateM σ)) (s : σ) (args : List String) (a : Arguments)
    (code : String) : Prop :=
  ∃ d : Diagnostic, d.isError = true ∧ d.phase = some "config" ∧ d.code = some code ∧
    (run host args).run s = (.ok {
      exitCode := 1
      out := if a.has .json then reportLine 1 [d] (Input.ofArguments a).label [] else ""
      err := if a.has .json then "" else diagnosticLines [d] }, s)

theorem failsInConfiguration_of_problem {p : Problem} (parsed : parse args = .run a)
    (problem : (loadSettings host a.config).run s = (.error (.problem p), s)) :
    FailsInConfiguration host s args a p.code := by
  refine ⟨p.diagnostic, rfl, rfl, rfl, ?_⟩
  rw [run_of_problem parsed problem]
  cases a.has .json <;> rfl

/-- What becomes of a run by its configuration file.  If the file cannot be read, the run fails
with an error that says so.  If it is text, there are settings, or the run fails with an error
that it is no configuration, unless the reader comes upon an integer of more than 4300 digits.
Then the run breaks off, and so it does if the file is not UTF-8. -/
theorem run_configuration (faithful : host.Faithful) {p : Path} (parsed : parse args = .run a)
    (takes : TakesSettings host s a.config p) :
    (∀ f, ((host.read p).run s).1 = .error f →
      FailsInConfiguration host s args a "config-unreadable") ∧
    (∀ text : String, ((host.read p).run s).1 = .ok text.toUTF8.toList →
      (∀ count, ¬ Json.HasLongInteger text count) →
        (∃ settings, ((loadSettings host a.config).run s).1 = .ok settings) ∨
          FailsInConfiguration host s args a "config-invalid") ∧
    (∀ (text : String) (count : Nat), ((host.read p).run s).1 = .ok text.toUTF8.toList →
      Json.HasLongInteger text count →
        4300 < count ∧ Json.HasDigits count text.toList ∧
          (run host args).run s = (.error (.longInteger count), s)) ∧
    ∀ bytes, ((host.read p).run s).1 = .ok bytes →
      (∀ text : String, bytes ≠ text.toUTF8.toList) →
        ∃ f, (run host args).run s = (.error (.undecodable f), s) := by
  have load := loadSettings_of_takes faithful takes
  refine ⟨fun f unreadable => ?_, fun text read short => ?_, fun text count read long => ?_,
    fun bytes read noText => ?_⟩
  · rw [unreadable] at load
    exact failsInConfiguration_of_problem parsed load
  · rw [read] at load
    rcases Settings.ofBytes_short short p.text with ⟨settings, is⟩ | ⟨problem, ⟨code, -⟩, is⟩
    · exact .inl ⟨settings, by rw [load]; exact is⟩
    · simp only [is] at load
      exact .inr (code ▸ failsInConfiguration_of_problem parsed load)
  · rw [read] at load
    simp only [Settings.ofBytes_longInteger long] at load
    obtain ⟨more, digits⟩ := long.hasDigits
    exact ⟨more, digits, run_of_breakdown parsed load⟩
  · rw [read] at load
    obtain ⟨f, is⟩ := Settings.ofBytes_noText noText p.text
    simp only [is] at load
    exact ⟨f, run_of_breakdown parsed load⟩

/-- Files with one configuration file among them. -/
def configured (bytes : List UInt8) : FileTree := ⟨[(["c.json"], .file bytes)]⟩

/-- The arguments of a run with that file. -/
def configuredArguments : Arguments where
  content := some "struct S \x7b\x7d"
  flags := [.inline]
  config := some (.text "c.json")

theorem run_configuration_list :
    FailsInConfiguration (FileTree.host [] (.ofText "/") []) (configured "[]".toUTF8.toList)
      ["-I", "struct S \x7b\x7d", "--config", "c.json"] configuredArguments "config-invalid" := by
  have parsed : parse ["-I", "struct S \x7b\x7d", "--config", "c.json"] =
      .run configuredArguments := by decide
  have read : ((FileTree.host [] (.ofText "/") []).read (.ofText "c.json")).run
      (configured "[]".toUTF8.toList) =
        (.ok "[]".toUTF8.toList, configured "[]".toUTF8.toList) := rfl
  have isList : Json.parse (String.ofList (Text.unifyLineEnds "[]".toList)) = .ok (.array []) := rfl
  have short : ∀ count, ¬ Json.HasLongInteger "[]" count := by
    rintro count ⟨l, failed, -⟩
    rw [isList] at failed
    cases failed
  have takes : TakesSettings (FileTree.host [] (.ofText "/") []) (configured "[]".toUTF8.toList)
      configuredArguments.config (.ofText "c.json") := .named (by decide)
  have faithful := FileTree.host_faithful [] (.ofText "/") []
  obtain ⟨-, ends, -⟩ := run_configuration faithful parsed takes
  rcases ends "[]" (congrArg Prod.fst read) short with ⟨settings, loaded⟩ | failed
  · have noSettings : Settings.ofText "[]" "c.json" =
        .error (.problem (.invalid "configuration must be a JSON object" (some "c.json") none)) :=
      rfl
    rw [loadSettings_of_takes faithful takes, read] at loaded
    simp only [Settings.ofBytes_toUTF8] at loaded
    cases noSettings.symm.trans loaded
  · exact failed

/-- From a file that is not UTF-8 come neither settings nor a problem, and the run has no
outcome. -/
theorem run_configuration_undecodable :
    (∀ settings, ((loadSettings (FileTree.host [] (.ofText "/") [])
      configuredArguments.config).run (configured [0xFF])).1 ≠ .ok settings) ∧
    (∀ p, ((loadSettings (FileTree.host [] (.ofText "/") [])
      configuredArguments.config).run (configured [0xFF])).1 ≠ .error (.problem p)) ∧
    ∀ o, ((run (FileTree.host [] (.ofText "/") [])
      ["-I", "struct S \x7b\x7d", "--config", "c.json"]).run (configured [0xFF])).1 ≠ .ok o := by
  have load : ((loadSettings (FileTree.host [] (.ofText "/") [])
      configuredArguments.config).run (configured [0xFF])).1 =
        .error (.breakdown (.undecodable ⟨.start, 0, 0xFF, 1⟩)) := rfl
  have breaks : ((run (FileTree.host [] (.ofText "/") [])
      ["-I", "struct S \x7b\x7d", "--config", "c.json"]).run (configured [0xFF])).1 =
        .error (.undecodable ⟨.start, 0, 0xFF, 1⟩) := rfl
  rw [load, breaks]
  exact ⟨nofun, nofun, nofun⟩

end Command

end Conformance
