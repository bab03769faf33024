import Conformance.Generate
import Conformance.Proofs.Code.Unindented

/-!
# The texts of blocks

The blocks of a type are put together from fixed texts: the memberwise initializer, the
conformance to coding, equality, and the two hashes.  The features that are asked for only
choose among these texts, and no feature changes the text of another.

A setting comes into few of the texts.  The names for stable hashes are in the stable hash
alone.  The type of fields without one is in the initializer and in the coding of fields, which
is where types are written.  The indentation is in all of them, but only in front of their
lines (`Nominal.blocks_eq_choice`).
-/

namespace Conformance

open Text

/-! ## Texts and choices -/

/-- The texts that the blocks of a type are put together from. -/
structure BlockTexts where
  /-- The memberwise initializer, if the type can have one. -/
  memberwise : Option String
  /-- The conformance to coding. -/
  coding : String
  /-- The conformance to equality. -/
  equality : String
  /-- The conformance to hashing for one run. -/
  hash : String
  /-- The conformance to stable hashing. -/
  stableHash : String
deriving DecidableEq, Repr

namespace BlockTexts

/-- The texts of the block with equality, as far as they are asked for. -/
def comparing (t : BlockTexts) (o : Options) : List String :=
  t.equality :: ((if o.hashing then [t.hash] else []) ++
    if o.stableHashing then [t.stableHash] else [])

/-- The blocks that are asked for. -/
def choice (t : BlockTexts) (o : Options) : List String :=
  (if o.memberwiseInit then t.memberwise.toList else []) ++
    (if o.serialization then [t.coding] else []) ++
    if o.equality || o.hashing || o.stableHashing then ["\n\n".intercalate (t.comparing o)]
    else []

/-- Texts that are equal line by line without the spaces in front. -/
structure SameLines (t u : BlockTexts) : Prop where
  memberwise : t.memberwise.map unindented = u.memberwise.map unindented
  coding : unindented t.coding = unindented u.coding
  equality : unindented t.equality = unindented u.equality
  hash : unindented t.hash = unindented u.hash
  stableHash : unindented t.stableHash = unindented u.stableHash

variable {t u : BlockTexts}

theorem SameLines.comparing (same : t.SameLines u) (o : Options) :
    (t.comparing o).map unindented = (u.comparing o).map unindented := by
  simp only [BlockTexts.comparing, List.map_cons, List.map_append, apply_ite (List.map unindented),
    same.equality, same.hash, same.stableHash, List.map_nil]

/-- Whatever is chosen, it has the same lines. -/
theorem SameLines.choice (same : t.SameLines u) (o : Options) :
    (t.choice o).map unindented = (u.choice o).map unindented := by
  have initializer : t.memberwise.toList.map unindented = u.memberwise.toList.map unindented := by
    rw [← Option.toList_map, ← Option.toList_map, same.memberwise]
  simp only [BlockTexts.choice, List.map_append, List.map_cons, List.map_nil,
    apply_ite (List.map unindented), initializer, same.coding,
    unindented_joined (same.comparing o)]

end BlockTexts

/-! ## The texts of a type -/

namespace Nominal

/-- The texts for a structure or class with some fields. -/
def productTexts (n : Nominal) (unit : String) (names : StableHashNames) (fields : List Field) :
    BlockTexts :=
  let type := n.head.name
  let isPublic := n.head.isPublic
  { memberwise := some ((⟨fields, isPublic⟩ : MemberwiseInit).render unit)
    coding := (Codable.ofFields type fields isPublic (n.head.kind == .classKind)).render unit
    equality := (Equality.ofFields type fields isPublic).render unit
    hash := (Equality.hashOfFields type fields isPublic).render unit
    stableHash := (Equality.stableHashOfFields names type fields isPublic).render unit }

/-- The texts for an enumeration. -/
def sumTexts (n : Nominal) (unit : String) (names : StableHashNames) : BlockTexts :=
  let type := n.head.name
  let isPublic := n.head.isPublic
  { memberwise := none
    coding := (Codable.ofVariants type n.variants isPublic).render unit
    equality := (Equality.ofVariants type n.variants isPublic).render unit
    hash := (Equality.hashOfVariants type n.variants isPublic).render unit
    stableHash := (Equality.stableHashOfVariants names type n.variants isPublic).render unit }

/-- The texts for a type.  Nothing is generated for a type of another shape. -/
def texts (n : Nominal) (s : Settings) : BlockTexts :=
  match n.head.kind.shape with
  | .product => n.productTexts s.indentUnit s.stableHash (n.fields s.unknownType)
  | .sum | .other => n.sumTexts s.indentUnit s.stableHash

variable (n : Nominal) (o : Options) (s : Settings)

theorem productBlocks_eq_choice : n.productBlocks o s =
    (n.productTexts s.indentUnit s.stableHash (n.fields s.unknownType)).choice o := by
  simp only [productBlocks, memberwiseInit, productTexts, BlockTexts.choice, BlockTexts.comparing,
    Options.wantsEquality, renderBlock, Equality.fieldExtensions, List.map_cons, List.map_append,
    List.map_nil, apply_ite (List.map (Extension.render s.indentUnit)), Option.toList_some]

theorem sumBlocks_eq_choice :
    n.sumBlocks o s = (n.sumTexts s.indentUnit s.stableHash).choice o := by
  simp only [sumBlocks, sumTexts, BlockTexts.choice, BlockTexts.comparing,
    Options.wantsEquality, renderBlock, Equality.variantExtensions, List.map_cons, List.map_append,
    List.map_nil, apply_ite (List.map (Extension.render s.indentUnit)), Option.toList_none,
    ite_self, List.nil_append]

/-! ## What settings change -/

/-- Which fields there are does not hang on the type of those without one. -/
theorem fieldNames_unknownType (u v : String) :
    (n.fields u).map Field.name = (n.fields v).map Field.name := by
  have each (m : Member) :
      (m.field? u).map Field.name = (m.field? v).map Field.name := by
    cases m with
    | property p =>
      simp only [Member.field?, PropertyDecl.field?]
      split
      · cases p.bindings.head? with
        | none => rfl
        | some b => simp [Function.comp_def]
      · rfl
    | _ => rfl
  simp only [fields, List.map_filterMap, each]

end Nominal

namespace Equality

variable {fields fields' : List Field}

/-- Fields come into equality by their names. -/
theorem ofFields_congr (names : fields.map Field.name = fields'.map Field.name) (type : String)
    (isPublic : Bool) : ofFields type fields isPublic = ofFields type fields' isPublic := by
  have pairs := congrArg (List.map fun name => ("lhs." ++ name, "rhs." ++ name)) names
  simp only [List.map_map, Function.comp_def] at pairs
  rw [ofFields, ofFields, pairs]

/-- Fields come into the hash by their names. -/
theorem hashOfFields_congr (names : fields.map Field.name = fields'.map Field.name)
    (type : String) (isPublic : Bool) :
    hashOfFields type fields isPublic = hashOfFields type fields' isPublic := by
  have steps := congrArg (List.map fun name => Statement.step (.feed name)) names
  simp only [List.map_map, Function.comp_def] at steps
  rw [hashOfFields, hashOfFields, steps]

/-- Fields come into the stable hash by their names. -/
theorem stableHashOfFields_congr (names : fields.map Field.name = fields'.map Field.name)
    (words : StableHashNames) (type : String) (isPublic : Bool) :
    stableHashOfFields words type fields isPublic =
      stableHashOfFields words type fields' isPublic := by
  have steps := congrArg
    (List.map fun name => Statement.step (.mix words.combine name words.property)) names
  simp only [List.map_map, Function.comp_def] at steps
  rw [stableHashOfFields, stableHashOfFields, steps]

end Equality

namespace Nominal

variable (n : Nominal) (s : Settings)

/-- The names for stable hashes are in the stable hash alone. -/
theorem texts_stableHash (names : StableHashNames) :
    (n.texts { s with stableHash := names }).memberwise = (n.texts s).memberwise ∧
    (n.texts { s with stableHash := names }).coding = (n.texts s).coding ∧
    (n.texts { s with stableHash := names }).equality = (n.texts s).equality ∧
    (n.texts { s with stableHash := names }).hash = (n.texts s).hash := by
  cases shape : n.head.kind.shape with
  | product => simp only [texts, shape, productTexts, Settings.indentUnit, and_self]
  | sum | other => simp only [texts, shape, sumTexts, Settings.indentUnit, and_self]

/-- The type of fields without one is in no comparison and in no hash. -/
theorem texts_unknownType (u : String) :
    (n.texts { s with unknownType := u }).equality = (n.texts s).equality ∧
    (n.texts { s with unknownType := u }).hash = (n.texts s).hash ∧
    (n.texts { s with unknownType := u }).stableHash = (n.texts s).stableHash := by
  have names := n.fieldNames_unknownType u s.unknownType
  cases shape : n.head.kind.shape with
  | product =>
    simp only [texts, shape, productTexts, Settings.indentUnit, Equality.ofFields_congr names,
      Equality.hashOfFields_congr names, Equality.stableHashOfFields_congr names, and_self]
  | sum | other => simp only [texts, shape, sumTexts, Settings.indentUnit, and_self]

/-- Enumerations have no fields. -/
theorem texts_unknownType_sum (sum : n.head.kind.shape = .sum) (u : String) :
    n.texts { s with unknownType := u } = n.texts s := by
  simp only [texts, sum, Settings.indentUnit]

/-- The indentation is in front of lines only. -/
theorem texts_indent (indent : Nat) : (n.texts { s with indent }).SameLines (n.texts s) := by
  have lines := Line.unindented_renderAll { s with indent } s
  cases shape : n.head.kind.shape with
  | product =>
    constructor <;>
      simp only [texts, shape, productTexts, Extension.render, MemberwiseInit.render, lines,
        Option.map_some]
  | sum | other =>
    constructor <;> simp only [texts, shape, sumTexts, Extension.render, lines, Option.map_none]

/-! ## Blocks -/

/-- For a structure, class or enumeration the features only choose among texts that the settings
give, and the initializer is there for a structure or class.  The names for stable hashes change
the stable hash alone.  The type of fields without one changes nothing in equality and the hashes,
and nothing at all of an enumeration.  The indentation changes what is in front of lines. -/
theorem blocks_eq_choice (typed : n.head.kind.shape ≠ .other) :
    ((n.texts s).memberwise.isSome ↔ n.head.kind.shape = .product) ∧
    (∀ o, n.blocks o s = (n.texts s).choice o) ∧
    (∀ names, (n.texts { s with stableHash := names }).memberwise = (n.texts s).memberwise ∧
      (n.texts { s with stableHash := names }).coding = (n.texts s).coding ∧
      (n.texts { s with stableHash := names }).equality = (n.texts s).equality ∧
      (n.texts { s with stableHash := names }).hash = (n.texts s).hash) ∧
    (∀ u, (n.texts { s with unknownType := u }).equality = (n.texts s).equality ∧
      (n.texts { s with unknownType := u }).hash = (n.texts s).hash ∧
      (n.texts { s with unknownType := u }).stableHash = (n.texts s).stableHash) ∧
    (n.head.kind.shape = .sum → ∀ u, n.texts { s with unknownType := u } = n.texts s) ∧
    ∀ indent, (n.texts { s with indent }).SameLines (n.texts s) ∧
      ∀ o, (n.blocks o { s with indent }).map unindented = (n.blocks o s).map unindented := by
  have chosen (s : Settings) (o : Options) : n.blocks o s = (n.texts s).choice o := by
    cases shape : n.head.kind.shape with
    | product => simp only [blocks, texts, shape, productBlocks_eq_choice]
    | sum => simp only [blocks, texts, shape, sumBlocks_eq_choice]
    | other => exact absurd shape typed
  refine ⟨?_, chosen s, n.texts_stableHash s, n.texts_unknownType s,
    fun sum => n.texts_unknownType_sum s sum, fun indent => ⟨n.texts_indent s indent, fun o => ?_⟩⟩
  · cases shape : n.head.kind.shape with
    | product => simp [texts, shape, productTexts]
    | sum => simp [texts, shape, sumTexts]
    | other => exact absurd shape typed
  · rw [chosen, chosen]
    exact (n.texts_indent s indent).choice o

/-- A public class with a field that has a value and no type. -/
def counter : Nominal where
  head := ⟨⟨1, 1⟩, .classKind, "Counter", ["public"], [], []⟩
  members := [.property ⟨⟨2, 5⟩, "var", [⟨some "count", none, some "0"⟩], .stored, []⟩]

/-- The type of the field is in the initializer and in no comparison. -/
theorem blocks_counter :
    counter.head.kind.shape ≠ .other ∧
    counter.blocks .everything {} = (counter.texts {}).choice .everything ∧
    (counter.texts { unknownType := "Int" }).equality = (counter.texts {}).equality ∧
    (counter.texts { unknownType := "Int" }).memberwise ≠ (counter.texts {}).memberwise ∧
    (counter.texts { indent := 2 }).SameLines (counter.texts {}) := by
  obtain ⟨-, chosen, -, unknownType, -, indented⟩ := blocks_eq_choice counter {} (by decide)
  exact ⟨by decide, chosen _, (unknownType "Int").1, by decide +kernel,
    (indented 2).1⟩

end Nominal

/-! ## Sources -/

/-- The text that is generated for a source are the blocks of its declarations. -/
theorem SourceFile.renderUnits_units (f : SourceFile) (o : Options) (s : Settings) :
    renderUnits (f.units o s) = joinBlocks (f.declarations.flatMap (Declaration.blocks · o s)) := by
  have unit (t : Nominal) :
      (t.unit? o s).toList.flatMap GeneratedUnit.blocks = t.blocks o s := by
    unfold Nominal.unit?
    dsimp only
    split <;> simp_all
  have each (d : Declaration) : ((d.nominal?.bind (Nominal.unit? · o s)).toList.flatMap
      GeneratedUnit.blocks) = d.blocks o s := by
    cases d with
    | nominal t => exact unit t
    | _ => rfl
  rw [renderUnits, units, nominals, List.filterMap_filterMap, List.filterMap_eq_flatMap_toList,
    List.flatMap_assoc]
  simp only [each]

end Conformance
