import Conformance.Proofs.Model.BlockTexts

/-!
# Code for loose settings

The code for loose settings is the loose text whose fillings are the code for the filled settings
(`SourceFile.fill_looseCode`).  There is such a text because code is only joined from its parts:
no part is looked at, so what stands in place of a half changes nothing else.

A *dependent* text is one that depends on what is put in place of each half.  It is *filled* if
it is the filling of one loose text whatever that is (`IsFilled`), and so for lines, and for lists
of either (`Each`).  Of the parts of code, three depend on halves: the type of fields without one,
and what goes into the stable hash.  The rest is fixed, and what is joined from fixed and filled
parts is filled.
-/

namespace Conformance

/-! ## Filled texts -/

/-- A dependent text is a filling of one loose text. -/
def IsFilled (g : (Half → Char) → String) : Prop := ∃ t : LooseText, ∀ stand, g stand = t.fill stand

/-- The items of a dependent list, of which there are always as many, are such dependent items. -/
def Each {α : Type} (P : ((Half → Char) → α) → Prop) (g : (Half → Char) → List α) : Prop :=
  ∃ gs : List ((Half → Char) → α), (∀ h ∈ gs, P h) ∧ ∀ stand, g stand = gs.map fun h => h stand

namespace IsFilled

variable {g h : (Half → Char) → String}

theorem fill (t : LooseText) : IsFilled fun stand => t.fill stand := ⟨t, fun _ => rfl⟩

theorem fixed (s : String) : IsFilled fun _ => s := ⟨s, by simp⟩

theorem of_eq {s : String} (all : ∀ stand, g stand = s) : IsFilled g :=
  (funext all : g = fun _ => s) ▸ fixed s

theorem append (first : IsFilled g) (second : IsFilled h) :
    IsFilled fun stand => g stand ++ h stand := by
  obtain ⟨t, is⟩ := first
  obtain ⟨u, is'⟩ := second
  exact ⟨t ++ u, fun stand => by simp only [is, is', LooseText.fill_append]⟩

end IsFilled

namespace Each

variable {α β ι : Type} {P : ((Half → Char) → α) → Prop} {Q : ((Half → Char) → β) → Prop}
  {g h : (Half → Char) → List α}

theorem nil : Each P fun _ => [] := ⟨[], by simp, fun _ => rfl⟩

theorem cons {a : (Half → Char) → α} (first : P a) (others : Each P h) :
    Each P fun stand => a stand :: h stand := by
  obtain ⟨hs, all, is⟩ := others
  exact ⟨a :: hs, List.forall_mem_cons.mpr ⟨first, all⟩,
    fun stand => by simp only [is, List.map_cons]⟩

theorem append (first : Each P g) (second : Each P h) :
    Each P fun stand => g stand ++ h stand := by
  obtain ⟨gs, all, is⟩ := first
  obtain ⟨hs, all', is'⟩ := second
  exact ⟨gs ++ hs, List.forall_mem_append.mpr ⟨all, all'⟩,
    fun stand => by simp only [is, is', List.map_append]⟩

theorem map {f : α → β} (keeps : ∀ a, P a → Q fun stand => f (a stand)) (each : Each P g) :
    Each Q fun stand => (g stand).map f := by
  obtain ⟨gs, all, is⟩ := each
  refine ⟨gs.map fun a stand => f (a stand), ?_, fun stand => by simp [is, Function.comp_def]⟩
  simpa using fun a mem => keeps a (all a mem)

/-- Lists for the members of a fixed list. -/
theorem flatMap {g : ι → (Half → Char) → List α} (each : ∀ i, Each P (g i)) (is : List ι) :
    Each P fun stand => is.flatMap fun i => g i stand := by
  induction is with
  | nil => exact .nil
  | cons i is ih => exact (each i).append ih

theorem fixed (all : ∀ a : α, P fun _ => a) (as : List α) : Each P fun _ => as := by
  induction as with
  | nil => exact .nil
  | cons a as ih => exact .cons (all a) ih

end Each

/-- Filled texts are joined to a filled text. -/
theorem IsFilled.intercalate {g : (Half → Char) → List String} (sep : String)
    (each : Each IsFilled g) : IsFilled fun stand => sep.intercalate (g stand) := by
  obtain ⟨gs, all, is⟩ := each
  simp only [is]
  clear is
  induction gs with
  | nil => exact .fixed _
  | cons h gs ih =>
    obtain ⟨first, others⟩ := List.forall_mem_cons.mp all
    cases gs with
    | nil => simpa using first
    | cons h' gs =>
      simp only [List.map_cons, String.intercalate_cons_cons] at ih ⊢
      exact (first.append (.fixed sep)).append (ih others)

/-! ## Filled lines -/

/-- A dependent line is blank, or its depth is fixed and its text is filled. -/
inductive IsFilledLine : ((Half → Char) → Line) → Prop
  | text (depth : Nat) {g : (Half → Char) → String} (filled : IsFilled g) :
      IsFilledLine fun stand => .text depth (g stand)
  | blank : IsFilledLine fun _ => .blank

/-- Lines of which each is filled. -/
abbrev AreFilled (g : (Half → Char) → List Line) : Prop := Each IsFilledLine g

theorem IsFilledLine.fixed (l : Line) : IsFilledLine fun _ => l := by
  cases l with
  | text depth s => exact .text depth (.fixed s)
  | blank => exact .blank

theorem IsFilledLine.nested {g : (Half → Char) → Line} (filled : IsFilledLine g) :
    IsFilledLine fun stand => (g stand).nested := by
  cases filled with
  | text depth filled => exact .text (depth + 1) filled
  | blank => exact .blank

theorem IsFilledLine.render {g : (Half → Char) → Line} (unit : String) (filled : IsFilledLine g) :
    IsFilled fun stand => (g stand).render unit := by
  cases filled with
  | text depth filled => exact (IsFilled.fixed _).append filled
  | blank => exact .fixed _

namespace AreFilled

variable {g h : (Half → Char) → List Line}

theorem fixed (ls : List Line) : AreFilled fun _ => ls := Each.fixed IsFilledLine.fixed ls

theorem of_eq {ls : List Line} (all : ∀ stand, g stand = ls) : AreFilled g :=
  (funext all : g = fun _ => ls) ▸ fixed ls

theorem nest (each : AreFilled g) : AreFilled fun stand => nest (g stand) :=
  Each.map (fun _ => IsFilledLine.nested) each

theorem renderAll (unit : String) (each : AreFilled g) :
    IsFilled fun stand => Line.renderAll unit (g stand) :=
  .intercalate _ (each.map fun _ => IsFilledLine.render unit)

/-- Texts at a depth. -/
theorem texts {g : (Half → Char) → List String} (depth : Nat) (each : Each IsFilled g) :
    AreFilled fun stand => (g stand).map (Line.text depth) :=
  each.map fun _ => IsFilledLine.text depth

end AreFilled

theorem Each.withCommas {g : (Half → Char) → List String} (each : Each IsFilled g) :
    Each IsFilled fun stand => withCommas (g stand) := by
  obtain ⟨gs, all, is⟩ := each
  simp only [is]
  clear is
  induction gs with
  | nil => exact .nil
  | cons h gs ih =>
    obtain ⟨first, others⟩ := List.forall_mem_cons.mp all
    cases gs with
    | nil => exact .cons first .nil
    | cons h' gs => exact .cons (first.append (.fixed ",")) (ih others)

/-! ## Fields -/

/-- A dependent field with a fixed name and a fixed value, whose type is filled. -/
inductive IsFilledField : ((Half → Char) → Field) → Prop
  | mk (name : String) (default : Option String) {g : (Half → Char) → String}
      (filled : IsFilled g) : IsFilledField fun stand => ⟨name, g stand, default⟩

theorem Nominal.isFilledField_fields (n : Nominal) (unknownType : LooseText) :
    Each IsFilledField fun stand => n.fields (unknownType.fill stand) := by
  have member (m : Member) :
      (∀ stand, m.field? (unknownType.fill stand) = none) ∨
      ∃ f, IsFilledField f ∧ ∀ stand, m.field? (unknownType.fill stand) = some (f stand) := by
    cases m with
    | property p =>
      simp only [Member.field?, PropertyDecl.field?]
      split
      · rcases p.bindings.head? with _ | ⟨_ | name, type, value⟩
        · exact .inl fun _ => rfl
        · exact .inl fun _ => rfl
        · cases type with
          | some type => exact .inr ⟨_, .mk name value (.fixed type), fun _ => rfl⟩
          | none => exact .inr ⟨_, .mk name value (.fill unknownType), fun _ => rfl⟩
      · exact .inl fun _ => rfl
    | _ => exact .inl fun _ => rfl
  unfold fields
  induction n.members with
  | nil => exact .nil
  | cons m ms ih =>
    rcases member m with none | ⟨f, filled, some⟩
    · simpa only [List.filterMap_cons, none] using ih
    · simp only [List.filterMap_cons, some]
      exact .cons filled ih

section
variable {fields : (Half → Char) → List Field}

theorem IsFilledField.parameter {f : (Half → Char) → Field} (filled : IsFilledField f) :
    IsFilled fun stand => (f stand).parameter.text := by
  obtain @⟨name, default, g, type⟩ := filled
  have front := (IsFilled.fixed (name ++ ": ")).append type
  cases default with
  | none => exact front.append (.fixed "")
  | some value => exact front.append (.fixed (" = " ++ value))

theorem IsFilledField.assignment {f : (Half → Char) → Field} (filled : IsFilledField f) :
    IsFilledLine fun stand => .text 1 (f stand).assignment.text := by
  obtain @⟨name, default, g, type⟩ := filled
  exact .fixed (.text 1 (Assignment.text ⟨name, name⟩))

theorem MemberwiseInit.areFilled_lines (isPublic : Bool) (each : Each IsFilledField fields) :
    AreFilled fun stand => (⟨fields stand, isPublic⟩ : MemberwiseInit).lines := by
  have parameters : Each IsFilled fun stand =>
      ((fields stand).map Field.parameter).map Parameter.text := by
    simp only [List.map_map]
    exact each.map fun _ => IsFilledField.parameter
  have assignments : AreFilled fun stand =>
      ((fields stand).map Field.assignment).map fun a => .text 1 a.text := by
    simp only [List.map_map]
    exact each.map fun _ => IsFilledField.assignment
  unfold lines
  refine .cons (.fixed _) ?_
  obtain ⟨gs, -, is⟩ := each
  cases gs with
  | nil =>
    simp only [is]
    exact AreFilled.fixed _
  | cons g gs =>
    have some (stand : Half → Char) : (fields stand).isEmpty = false := by rw [is]; rfl
    simp only [some, Bool.false_eq_true, if_false]
    have opening := AreFilled.texts 1 parameters.withCommas
    exact ((Each.cons (.fixed _) opening).append (.cons (.fixed _) assignments)).append
      (AreFilled.fixed _)

theorem IsFilledField.decoded {f : (Half → Char) → Field} (filled : IsFilledField f) :
    IsFilled fun stand =>
      (f stand).decoded.name ++ ": " ++ (f stand).decoded.expression .outer := by
  obtain @⟨name, default, g, type⟩ := filled
  have expression : IsFilled fun stand => Decoded.expression ⟨name, g stand, name⟩ .outer :=
    ((((IsFilled.fixed ("try " ++ Store.outer.name ++ ".decode(")).append type).append
      (.fixed ".self, forKey: .")).append (.fixed name)).append (.fixed ")")
  exact (IsFilled.fixed (name ++ ": ")).append expression

theorem areFilled_delegate (depth : Nat) (each : Each IsFilledField fields) :
    AreFilled fun stand => (Step.delegate ((fields stand).map Field.decoded)).lines depth := by
  obtain ⟨gs, all, is⟩ := each
  cases gs with
  | nil =>
    simp only [is]
    exact AreFilled.fixed _
  | cons g gs =>
    have values : Each IsFilled fun stand => ((fields stand).map Field.decoded).map
        fun d => d.name ++ ": " ++ d.expression .outer := by
      simp only [List.map_map]
      exact Each.map (fun _ => IsFilledField.decoded) ⟨g :: gs, all, is⟩
    have lines (stand : Half → Char) :
        (Step.delegate ((fields stand).map Field.decoded)).lines depth =
          .text depth "self.init(" :: (withCommas (((fields stand).map Field.decoded).map
            fun d => d.name ++ ": " ++ d.expression .outer)).map (Line.text (depth + 1)) ++
          [.text depth ")"] := by
      rw [is]
      rfl
    simp only [lines]
    exact (Each.cons (.fixed _) (AreFilled.texts (depth + 1) values.withCommas)).append
      (AreFilled.fixed _)

end

/-! ## Extensions -/

/-- A dependent member whose lines are filled. -/
def IsFilledMember (access : String) (m : (Half → Char) → CodeMember) : Prop :=
  AreFilled fun stand => (m stand).lines access

theorem IsFilledMember.function {access : String} {method : (Half → Char) → Method}
    {body : (Half → Char) → List Statement}
    (header : IsFilled fun stand => (method stand).header access)
    (lines : AreFilled fun stand => (body stand).flatMap (Statement.lines 1)) :
    IsFilledMember access fun stand => .function (method stand) (body stand) :=
  (Each.cons (.text 0 (header.append (.fixed " \x7b"))) lines).append (AreFilled.fixed _)

theorem AreFilled.separated {g : (Half → Char) → List (List Line)} (each : Each AreFilled g) :
    AreFilled fun stand => Extension.separated (g stand) := by
  obtain ⟨gs, all, is⟩ := each
  simp only [is]
  clear is
  induction gs with
  | nil => exact .nil
  | cons h gs ih =>
    obtain ⟨first, others⟩ := List.forall_mem_cons.mp all
    cases gs with
    | nil => exact first
    | cons h' gs => exact Each.append first (.cons .blank (ih others))

/-- An extension of filled members, which makes a type conform to something filled. -/
theorem Extension.isFilled_render {type : String} {isPublic : Bool}
    {conformance : (Half → Char) → String} (filled : IsFilled conformance)
    {members : (Half → Char) → List CodeMember}
    (each : Each (IsFilledMember (accessWord isPublic)) members) (unit : String) :
    IsFilled fun stand =>
      (⟨type, conformance stand, isPublic, members stand⟩ : Extension).render unit := by
  have header : IsFilled fun stand =>
      "extension " ++ type ++ ": " ++ conformance stand ++ " \x7b" :=
    ((IsFilled.fixed ("extension " ++ type ++ ": ")).append filled).append (.fixed _)
  have inner : AreFilled fun stand =>
      separated ((members stand).map (CodeMember.lines (accessWord isPublic))) :=
    .separated (each.map fun _ => id)
  exact AreFilled.renderAll unit
    ((Each.cons (.text 0 header) inner.nest).append (AreFilled.fixed _))

/-! ## Coding -/

section
variable {fields : (Half → Char) → List Field}

/-- Nothing in place of a half changes the names of fields. -/
theorem Each.names (each : Each IsFilledField fields) :
    ∃ names, ∀ stand, (fields stand).map Field.name = names := by
  obtain ⟨gs, all, is⟩ := each
  refine ⟨(fields Half.oneStand).map Field.name, fun stand => ?_⟩
  rw [is, is, List.map_map, List.map_map]
  refine List.map_congr_left fun g mem => ?_
  obtain ⟨name, default, type⟩ := all g mem
  rfl

/-- Fields are written by their names. -/
theorem Codable.encodeFields_eq (fs : List Field) :
    encodeFields fs = .step (.openWriting !(fs.map Field.name).isEmpty) ::
      (fs.map Field.name).map fun name => .step (.encode .outer name name) := by
  rw [encodeFields, List.isEmpty_map, List.map_map]
  rfl

theorem Codable.isFilled_ofFields (type : String) (isPublic isClass : Bool) (unit : String)
    (each : Each IsFilledField fields) :
    IsFilled fun stand => (ofFields type (fields stand) isPublic isClass).render unit := by
  obtain ⟨names, fixed⟩ := each.names
  have some (stand : Half → Char) : (fields stand).isEmpty = names.isEmpty := by
    rw [← fixed stand, List.isEmpty_map]
  have delegate : AreFilled fun stand =>
      (decodeFields (fields stand)).flatMap (Statement.lines 1) := by
    simp only [decodeFields, some, List.flatMap_cons, List.flatMap_nil, List.append_nil]
    exact (AreFilled.fixed _).append (areFilled_delegate 1 each)
  have decode : IsFilledMember (accessWord isPublic) fun stand =>
      .function (.decode isClass) (decodeFields (fields stand)) :=
    .function (.fixed _) delegate
  have others (m : CodeMember) : IsFilledMember (accessWord isPublic) fun _ => m := .fixed _
  simp only [ofFields, encodeFields_eq, fixed]
  exact Extension.isFilled_render (.fixed _)
    (.cons (others _) (.cons (others _) (.cons decode .nil))) unit

end

/-! ## Stable hashes -/

/-- A switch over payloads whose arms are filled. -/
theorem areFilled_payloadSwitch (subject : String) (variants : List Variant) (before : String)
    {body : Variant → (Half → Char) → List Step}
    (each : ∀ v, AreFilled fun stand => (body v stand).flatMap (Step.lines 2)) :
    AreFilled fun stand => (Equality.payloadSwitch subject variants before
      fun v => body v stand).flatMap (Statement.lines 1) := by
  have arm (v : Variant) : AreFilled fun stand => Arm.lines 1 ⟨v.pattern before, body v stand⟩ :=
    .cons (.fixed (.text 1 (v.pattern before).label)) (each v)
  unfold Equality.payloadSwitch
  cases variants.filter Variant.hasPayload with
  | nil => exact .nil
  | cons v vs =>
    simp only [List.isEmpty_cons, Bool.false_eq_true, if_false, List.flatMap_cons,
      List.flatMap_nil, List.append_nil, Statement.lines, List.flatMap_map]
    exact (Each.append (.cons (.fixed _) (Each.flatMap arm (v :: vs))) (AreFilled.fixed _)).append
      (AreFilled.fixed _)

namespace StableHashNames

variable (names : StableHashNames LooseText)

theorem areFilled_mix (depth : Nat) (value : String) : AreFilled fun stand =>
    (Step.mix (names.fill stand).combine value (names.fill stand).property).lines depth :=
  .cons (.text depth ((((((IsFilled.fill names.combine).append (.fixed "(&")).append
    (.fixed hashName)).append (.fixed ", ")).append (.fixed value)).append (.fixed ".") |>.append
      (.fill names.property) |>.append (.fixed ")"))) .nil

/-- A stable hash of parts that are mixed in is filled if the mixing is. -/
theorem isFilled_render {mixing : (Half → Char) → List Statement}
    (filled : AreFilled fun stand => (mixing stand).flatMap (Statement.lines 1)) (type : String)
    (isPublic : Bool) (unit : String) : IsFilled fun stand =>
      (⟨type, (names.fill stand).conformance, isPublic,
        [.function (.stableHash (names.fill stand).property)
          (Equality.stableBody (mixing stand))]⟩ : Extension).render unit := by
  have header : IsFilled fun stand =>
      (Method.stableHash (names.fill stand).property).header (accessWord isPublic) :=
    ((IsFilled.fixed (accessWord isPublic ++ "var ")).append (.fill names.property)).append
      (.fixed ": Int")
  have body : AreFilled fun stand =>
      (Equality.stableBody (mixing stand)).flatMap (Statement.lines 1) := by
    simp only [Equality.stableBody, List.cons_append, List.flatMap_cons, List.flatMap_append]
    exact (AreFilled.fixed _).append (filled.append (AreFilled.fixed _))
  exact Extension.isFilled_render (.fill names.conformance)
    (.cons (IsFilledMember.function header body) .nil) unit

theorem isFilled_ofFields (type : String) (fields : List Field) (isPublic : Bool) (unit : String) :
    IsFilled fun stand =>
      (Equality.stableHashOfFields (names.fill stand) type fields isPublic).render unit := by
  have mixing : AreFilled fun stand => (fields.map fun f => Statement.step
      (.mix (names.fill stand).combine f.name (names.fill stand).property)).flatMap
        (Statement.lines 1) := by
    have each (f : Field) : AreFilled fun stand => (Statement.step (.mix
        (names.fill stand).combine f.name (names.fill stand).property)).lines 1 :=
      names.areFilled_mix 1 f.name
    simp only [List.flatMap_map]
    exact Each.flatMap each fields
  exact isFilled_render names mixing type isPublic unit

theorem isFilled_ofVariants (type : String) (variants : List Variant) (isPublic : Bool)
    (unit : String) : IsFilled fun stand =>
      (Equality.stableHashOfVariants (names.fill stand) type variants isPublic).render unit := by
  have slots (v : Variant) : AreFilled fun stand => ((v.boundNames payloadPrefix).map fun b =>
      Step.mix (names.fill stand).combine b (names.fill stand).property).flatMap
        (Step.lines 2) := by
    simp only [List.flatMap_map]
    exact Each.flatMap (fun b => names.areFilled_mix 2 b) _
  have mixing : AreFilled fun stand => (.step (.mix (names.fill stand).combine nameProperty
      (names.fill stand).property) :: Equality.payloadSwitch "self" variants payloadPrefix fun v =>
        (v.boundNames payloadPrefix).map fun b => Step.mix (names.fill stand).combine b
          (names.fill stand).property).flatMap (Statement.lines 1) :=
    (names.areFilled_mix 1 nameProperty).append (areFilled_payloadSwitch _ _ _ slots)
  exact isFilled_render names mixing type isPublic unit

end StableHashNames

/-! ## Blocks -/

section
variable (o : Options) (s : LooseSettings)

/-- A text that is there if it is asked for. -/
theorem Each.asked {g : (Half → Char) → String} (asked : Bool) (filled : IsFilled g) :
    Each IsFilled fun stand => if asked then [g stand] else [] := by
  cases asked with
  | true => exact .cons filled .nil
  | false => exact .nil

/-- The block with equality of a structure or class. -/
theorem Equality.isFilled_fieldExtensions {fields : (Half → Char) → List Field}
    (each : Each IsFilledField fields) (names : StableHashNames LooseText) (type : String)
    (isPublic hashing stableHashing : Bool) (unit : String) :
    IsFilled fun stand => renderBlock unit (fieldExtensions (names.fill stand) type (fields stand)
      isPublic hashing stableHashing) := by
  obtain ⟨fieldNames, fixed⟩ := each.names
  have same (stand : Half → Char) : (fields stand).map Field.name =
      (fields Half.oneStand).map Field.name := by rw [fixed, fixed]
  have stable := names.isFilled_ofFields type (fields Half.oneStand) isPublic unit
  refine .intercalate _ ?_
  simp only [fieldExtensions, ofFields_congr (same _), hashOfFields_congr (same _),
    stableHashOfFields_congr (same _), List.map_cons, List.map_append,
    apply_ite (List.map (Extension.render unit)), List.map_nil]
  exact .cons (.fixed _) (.append (Each.fixed IsFilled.fixed _) (.asked _ stable))

/-- The block with equality of an enumeration. -/
theorem Equality.isFilled_variantExtensions (names : StableHashNames LooseText) (type : String)
    (variants : List Variant) (isPublic hashing stableHashing : Bool) (unit : String) :
    IsFilled fun stand => renderBlock unit (variantExtensions (names.fill stand) type variants
      isPublic hashing stableHashing) := by
  have stable := names.isFilled_ofVariants type variants isPublic unit
  refine .intercalate _ ?_
  simp only [variantExtensions, List.map_cons, List.map_append,
    apply_ite (List.map (Extension.render unit)), List.map_nil]
  exact .cons (.fixed _) (.append (Each.fixed IsFilled.fixed _) (.asked _ stable))

theorem Nominal.areFilled_blocks (n : Nominal) :
    Each IsFilled fun stand => n.blocks o (s.fill stand) := by
  have fields := n.isFilledField_fields s.unknownType
  -- The indentation is the same in all fillings.
  have unit (stand : Half → Char) :
      (s.fill stand).indentUnit = (s.fill Half.oneStand).indentUnit := rfl
  unfold blocks
  cases n.head.kind.shape with
  | product =>
    simp only [productBlocks, memberwiseInit, unit]
    exact ((Each.asked _ (AreFilled.renderAll _ (MemberwiseInit.areFilled_lines _ fields))).append
      (.asked _ (Codable.isFilled_ofFields _ _ _ _ fields))).append
        (.asked _ (Equality.isFilled_fieldExtensions fields _ _ _ _ _ _))
  | sum =>
    simp only [sumBlocks, unit]
    exact (Each.asked _ (.fixed _)).append
      (.asked _ (Equality.isFilled_variantExtensions _ _ _ _ _ _ _))
  | other => exact .nil

/-- The code for loose settings with something in place of each half is the code for the settings
with that in place of each half. -/
theorem SourceFile.fill_looseCode (f : SourceFile) (stand : Half → Char) :
    (f.looseCode o s).fill stand = renderUnits (f.units o (s.fill stand)) := by
  have declaration (d : Declaration) : Each IsFilled fun stand => d.blocks o (s.fill stand) := by
    cases d with
    | nominal n => exact n.areFilled_blocks o s
    | _ => exact .nil
  have blocks := Each.flatMap declaration f.declarations
  have code : IsFilled fun stand => renderUnits (f.units o (s.fill stand)) := by
    simp only [renderUnits_units, joinBlocks]
    obtain ⟨gs, all, is⟩ := blocks
    simp only [is]
    cases gs with
    | nil => exact .fixed ""
    | cons g gs =>
      exact (IsFilled.intercalate "\n\n" ⟨g :: gs, all, fun _ => rfl⟩).append (.fixed "\n")
  obtain ⟨t, filling⟩ := code
  have same : f.looseCode o s = t := by
    rw [looseCode, funext filling, LooseText.ofFillings_fill]
  rw [same]
  exact (filling stand).symm

/-- Settings without halves have the code that is generated with them. -/
theorem SourceFile.looseCode_ofSettings (f : SourceFile) (settings : Settings) :
    f.looseCode o (.ofSettings settings) = renderUnits (f.units o settings) := by
  refine LooseText.eq_of_fill fun stand => ?_
  rw [fill_looseCode, LooseSettings.fill_ofSettings, LooseText.fill_ofString]

end

end Conformance
