import Conformance.Proofs.Command.Configuration

/-!
# Nothing to generate

A run that succeeds warns that there are no declarations to generate code for where its units
are empty.  That is where the source has none, and also where the features that are asked for
reach none of those that it has: the memberwise initializer does not reach an enumeration, and a
configuration may ask for no feature at all (`Command.run_nothing`).
-/

namespace Conformance

/-! ## Empty units -/

/-- Whether something is generated for declarations of a shape. -/
def Options.reach (o : Options) : Shape → Bool
  | .product => o.memberwiseInit || o.serialization || o.wantsEquality
  | .sum => o.serialization || o.wantsEquality
  | .other => false

theorem Nominal.isEmpty_blocks (n : Nominal) (o : Options) (settings : Settings) :
    (n.blocks o settings).isEmpty = !o.reach n.head.kind.shape := by
  unfold blocks
  cases n.head.kind.shape with
  | product =>
    simp only [productBlocks, Options.reach]
    cases o.memberwiseInit <;> cases o.serialization <;> cases o.wantsEquality <;> rfl
  | sum =>
    simp only [sumBlocks, Options.reach]
    cases o.serialization <;> cases o.wantsEquality <;> rfl
  | other => rfl

/-- Nothing is generated for a source where the features reach none of its declarations. -/
theorem SourceFile.isEmpty_units (f : SourceFile) (o : Options) (settings : Settings) :
    (f.units o settings).isEmpty = true ↔ ∀ d ∈ f.declarations, o.reach d.shape = false := by
  have unit (n : Nominal) : n.unit? o settings = none ↔ o.reach n.head.kind.shape = false := by
    rw [Nominal.unit?, n.isEmpty_blocks]
    cases o.reach n.head.kind.shape <;> simp
  rw [List.isEmpty_iff, units, List.filterMap_eq_nil_iff]
  simp only [unit, nominals, List.mem_filterMap]
  constructor
  · intro none d mem
    cases d with
    | nominal n => exact none n ⟨_, mem, rfl⟩
    | directive line => rfl
    | stateless l => rfl
  · rintro none n ⟨d, mem, is⟩
    cases d with
    | nominal n' =>
      cases is
      exact none _ mem
    | directive line => cases is
    | stateless l => cases is

/-- A source has a structure, class or enumeration outside of any other type. -/
def SourceFile.HasTypes (f : SourceFile) : Prop := ∃ d ∈ f.declarations, d.shape ≠ .other

/-- The features reach no declaration if there is no type, or if they fall short of those that are
there. -/
theorem SourceFile.unreached_iff (f : SourceFile) (o : Options) :
    (∀ d ∈ f.declarations, o.reach d.shape = false) ↔
      ¬ f.HasTypes ∨ (o.serialization || o.wantsEquality) = false ∧
        (o.memberwiseInit = true → ∀ d ∈ f.declarations, d.shape ≠ .product) := by
  cases asked : o.serialization || o.wantsEquality with
  | true =>
    simp only [Bool.true_eq_false, false_and, or_false, HasTypes, not_exists, not_and, ne_eq,
      Classical.not_not]
    refine forall₂_congr fun d mem => ?_
    cases d.shape <;> simp [Options.reach, asked, Bool.or_assoc]
  | false =>
    have reach (d : Declaration) : o.reach d.shape = false ↔
        (o.memberwiseInit = true → d.shape ≠ .product) := by
      cases d.shape <;> simp [Options.reach, asked, Bool.or_assoc]
    simp only [reach, true_and]
    constructor
    · exact fun all => .inr fun asked d mem => all d mem asked
    · rintro (none | all) d mem asked
      · exact fun product => none ⟨d, mem, by rw [product]; decide⟩
      · exact all asked d mem

/-! ## Runs -/

namespace Command

variable {σ : Type} {host : Host (StateM σ)} {s s' : σ} {args : List String} {a : Arguments}
  {o : Outcome}

/-- A run that succeeds has read settings and a source, and reports the warnings about them. -/
theorem run_success (faithful : host.Faithful) (parsed : parse args = .run a)
    (ran : (run host args).run s = (.ok o, s')) (success : o.exitCode = 0) :
    ∃ settings f delivery, Reads host a s settings f ∧
      o = (⟨0, warningsOf f (a.effectiveOptions settings) settings (Input.ofArguments a).label,
        delivery⟩ : Report).outcome (Input.ofArguments a).label (a.has .json) := by
  obtain ⟨r, reported, rfl⟩ := exists_report_of_run parsed ran
  rw [Report.exitCode_outcome] at success
  rcases report_cases faithful reported with
    ⟨failed, -⟩ | ⟨settings, f, delivery, reads, rfl, -⟩
  · rw [failed.exitCode] at success
    cases success
  · exact ⟨settings, f, delivery, reads, rfl⟩

/-- The warning that nothing is generated is told by its message. -/
theorem exists_nothingWarning {f : SourceFile} {options : Options} {settings : LooseSettings}
    {label : String} :
    (∃ d ∈ warningsOf f options settings label,
      d.message = "no struct, class or enum declarations to generate code for") ↔
        (f.units options (settings.fill Half.oneStand)).isEmpty = true := by
  rw [warningsOf]
  constructor
  · rintro ⟨d, mem, message⟩
    rcases List.mem_append.mp mem with nothing | warning
    · split at nothing
      next empty => exact empty
      · cases nothing
    · rw [SourceFile.warnings] at warning
      split at warning
      · obtain ⟨n, -, rfl⟩ := List.mem_map.mp warning
        have first := congrArg (fun m : LooseText => (m.fill Half.oneStand).toList.head?) message
        simp [Nominal.finalWarning] at first
      · cases warning
  · intro empty
    rw [if_pos empty]
    exact ⟨nothingWarning label, List.mem_append_left _ (.head _), rfl⟩

/-- The diagnostics that a run reports: in lines on the standard error, or in a report for
programs. -/
def Reported (a : Arguments) (o : Outcome) (ds : List Diagnostic) : Prop :=
  if a.has .json then
    ∃ members, o.out = reportLine o.exitCode ds (Input.ofArguments a).label members
  else o.err = diagnosticLines ds

/-- A run that succeeds warns that there is nothing to generate code for where the source has no
structure, class or enumeration, and where the features do not reach those that it has: where
neither coding nor equality is asked for, and no structure or class is there for the memberwise
initializer, or that is not asked for either. -/
theorem run_nothing (faithful : host.Faithful) (parsed : parse args = .run a)
    (ran : (run host args).run s = (.ok o, s')) (success : o.exitCode = 0) :
    ∃ settings f ds, Reads host a s settings f ∧ Reported a o ds ∧
      let asked := a.effectiveOptions settings
      ((∃ d ∈ ds, d.message = "no struct, class or enum declarations to generate code for") ↔
        ¬ f.HasTypes ∨ (asked.serialization || asked.wantsEquality) = false ∧
          (asked.memberwiseInit = true → ∀ d ∈ f.declarations, d.shape ≠ .product)) := by
  obtain ⟨settings, f, delivery, reads, rfl⟩ := run_success faithful parsed ran success
  refine ⟨settings, f, warningsOf f (a.effectiveOptions settings) settings
    (Input.ofArguments a).label, reads, ?_, exists_nothingWarning.trans ?_⟩
  · rw [Reported, Report.out_outcome, Report.err_outcome, Report.exitCode_outcome]
    cases a.has .json with
    | true => exact ⟨_, rfl⟩
    | false => rfl
  · rw [f.isEmpty_units]
    exact f.unreached_iff _

/-- The arguments of a run on a protocol. -/
def protocolArguments : Arguments where
  content := some "protocol P \x7b\x7d"
  flags := [.codable, .inline]

/-- The shapes of the declarations of a source. -/
def shapesOf (f : SourceFile) : List Shape := f.declarations.map Declaration.shape

theorem run_nothing_protocol :
    ∃ o t ds, (run (FileTree.host [] (.ofText "/") [])
        ["-I", "protocol P \x7b\x7d", "--codable"]).run ⟨[]⟩ = (.ok o, t) ∧
      o.exitCode = 0 ∧ Reported protocolArguments o ds ∧
      ∃ d ∈ ds, d.message = "no struct, class or enum declarations to generate code for" := by
  have parsed : parse ["-I", "protocol P \x7b\x7d", "--codable"] = .run protocolArguments := by
    decide
  have seen : ((run (FileTree.host [] (.ofText "/") [])
      ["-I", "protocol P \x7b\x7d", "--codable"]).run ⟨[]⟩).1.toOption.map Outcome.exitCode =
        some 0 := by decide +kernel
  have shapes : (SourceFile.read "protocol P \x7b\x7d" (some "<inline>")).toOption.map shapesOf =
      some [.other] := by decide +kernel
  cases ran : (run (FileTree.host [] (.ofText "/") [])
      ["-I", "protocol P \x7b\x7d", "--codable"]).run ⟨[]⟩ with
  | mk result t =>
    rw [ran] at seen
    obtain ⟨o, rfl, success⟩ := exists_ok_of _ seen
    obtain ⟨settings, f, ds, reads, reported, iff⟩ :=
      run_nothing (FileTree.host_faithful [] (.ofText "/") []) parsed ran success
    have read : SourceFile.read "protocol P \x7b\x7d" (some "<inline>") = .ok f :=
      Except.ok.inj reads.source
    have noTypes : ¬ f.HasTypes := by
      rintro ⟨d, mem, type⟩
      have other : shapesOf f = [.other] := by
        rw [read] at shapes
        exact Option.some.inj shapes
      have shape : d.shape ∈ shapesOf f := List.mem_map_of_mem mem
      rw [other] at shape
      exact type (List.mem_singleton.mp shape)
    exact ⟨o, t, ds, rfl, success, reported, iff.mpr (.inl noTypes)⟩

/-- The memberwise initializer does not reach an enumeration, and the warning is there. -/
theorem run_nothing_enumeration :
    ∃ f, SourceFile.read "enum E \x7b case a \x7d" (some "<inline>") = .ok f ∧ f.HasTypes ∧
      ((run (FileTree.host [] (.ofText "/") [])
        ["-I", "enum E \x7b case a \x7d", "--memberwise-init"]).run ⟨[]⟩).1 =
      .ok ⟨0, "", "<inline>: warning: " ++
        "no struct, class or enum declarations to generate code for\n"⟩ := by
  have shapes : (SourceFile.read "enum E \x7b case a \x7d" (some "<inline>")).toOption.map
      shapesOf = some [.sum] := by decide +kernel
  have seen : ((run (FileTree.host [] (.ofText "/") [])
      ["-I", "enum E \x7b case a \x7d", "--memberwise-init"]).run ⟨[]⟩).1.toOption.map id =
        some ⟨0, "", "<inline>: warning: " ++
          "no struct, class or enum declarations to generate code for\n"⟩ := by decide +kernel
  obtain ⟨f, read, shapes⟩ := exists_ok_of _ shapes
  obtain ⟨o, ran, rfl⟩ := exists_ok_of _ seen
  have some : Shape.sum ∈ shapesOf f := by
    rw [shapes]
    exact .head _
  obtain ⟨d, mem, shape⟩ := List.mem_map.mp some
  exact ⟨f, read, ⟨d, mem, by rw [shape]; decide⟩, ran⟩

end Command

end Conformance
