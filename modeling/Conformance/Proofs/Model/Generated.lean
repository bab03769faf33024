import Conformance.Generate
import Conformance.Proofs.Model.OpaqueBodies
import Conformance.Proofs.Model.Phrases

/-!
# Generated code is read again

The text that is generated for an accepted source is accepted as well.  Its declarations are an
initializer and extensions for each type of the source, in order and as far as they are asked
for, and the outer keys in a conformance to coding have one case for each field or variant
(`SourceFile.read_generated`).

Names must be written without back quotes and dollar signs, since they are spelled into other
names, and types must have no comments in them, since they are put on one line.  There is one
more thing to ask for.  A value is kept verbatim and may open a comment that the source never
closes.  Behind it stands other text in generated code, among it the types, and a back-quoted
name in a type may close the comment (`SourceFile.read_closingName`).
-/

namespace Conformance

open Pattern Grammar

/-! ## What is generated -/

namespace Nominal

/-- The sketch of an extension of the type. -/
def extension (n : Nominal) (conformance : String) (keys : List (List CaseElement)) : Sketch :=
  .type .extensionKind n.head.name [conformance] keys

/-- The names of the fields of a structure or class, and of the variants of an enumeration. -/
def keyNames (n : Nominal) (s : Settings) : List String :=
  match n.head.kind.shape with
  | .product => (n.fields s.unknownType).map Field.name
  | .sum => n.variants.map Variant.name
  | .other => []

/-- The extensions with equality and the hashes. -/
def equalities (n : Nominal) (o : Options) (s : Settings) : List Sketch :=
  (if o.wantsEquality then [n.extension "Equatable" []] else []) ++
    (if o.hashing then [n.extension "Hashable" []] else []) ++
    if o.stableHashing then [n.extension s.stableHash.conformance []] else []

/-- The declarations that are generated for the type. -/
def sketches (n : Nominal) (o : Options) (s : Settings) : List Sketch :=
  let initializers := if o.memberwiseInit then [.stateless "init" none] else []
  let extensions :=
    (if o.serialization then [n.extension "Codable" [(n.keyNames s).map plainCase]] else []) ++
      n.equalities o s
  match n.head.kind.shape with
  | .product => initializers ++ extensions
  | .sum => extensions
  | .other => []

end Nominal

/-- What is put in for settings. -/
structure Settings.Prints (s : Settings) : Prop where
  /-- The names in the code for stable hashes. -/
  stableHash : s.stableHash.Prints
  /-- The type of fields without one. -/
  unknownType : IsFiller s.unknownType

theorem Settings.prints_default : ({} : Settings).Prints := by
  refine ⟨⟨by decide, by decide, by decide⟩, ?_⟩
  exact ⟨_, piece_of_isNear (by decide +kernel) (by decide +kernel), by decide +kernel⟩

section
variable {n : Nominal} {o : Options} {s : Settings}

/-- The conformances to equality and the hashes, as far as they are asked for. -/
theorem display_equalities {equality hash stable : Extension} (equal : equality.Prints)
    (hashes : hash.Prints) (stably : stable.Prints)
    (sketches : equality.sketch = n.extension "Equatable" [] ∧
      hash.sketch = n.extension "Hashable" [] ∧
      stable.sketch = n.extension s.stableHash.conformance []) :
    Display (if o.wantsEquality then [renderBlock s.indentUnit (equality ::
        ((if o.hashing then [hash] else []) ++ if o.stableHashing then [stable] else []))] else [])
      [] (n.equalities o s) := by
  have prints : ∀ e ∈ equality ::
      ((if o.hashing then [hash] else []) ++ if o.stableHashing then [stable] else []), e.Prints := by
    refine List.forall_mem_cons.mpr ⟨equal, List.forall_mem_append.mpr ⟨?_, ?_⟩⟩ <;> split <;>
      simp [hashes, stably]
  have block := display_block s.spaces prints
  cases wanted : o.wantsEquality with
  | true =>
    have each : (equality :: ((if o.hashing then [hash] else []) ++
        if o.stableHashing then [stable] else [])).map Extension.sketch = n.equalities o s := by
      rw [List.map_cons, List.map_append, apply_ite (List.map _), apply_ite (List.map _)]
      simp [sketches, Nominal.equalities, wanted]
    rw [each] at block
    exact block
  | false =>
    obtain ⟨⟨-, hashing⟩, stableHashing⟩ : (o.equality = false ∧ o.hashing = false) ∧
        o.stableHashing = false := by simpa [Options.wantsEquality] using wanted
    simpa [Nominal.equalities, wanted, hashing, stableHashing] using Display.nil

/-- A part of generated code, if it is asked for. -/
theorem display_if (asked : Bool) {texts : List String} {vs : List (List Token)}
    {sketches : List Sketch} (h : Display texts vs sketches) :
    ∃ ws, ws.Sublist vs ∧
      Display (if asked then texts else []) ws (if asked then sketches else []) := by
  cases asked with
  | true => exact ⟨vs, .refl vs, h⟩
  | false => exact ⟨[], List.nil_sublist vs, .nil⟩

/-- The conformance to coding. -/
theorem Nominal.display_coding {e : Extension} (prints : e.Prints) (type : e.type = n.head.name)
    (conformance : e.conformance = Codable.conformance)
    (keys : e.members.flatMap CodeMember.outerCases = [(n.keyNames s).map plainCase]) :
    Display [e.render s.indentUnit] [] [n.extension "Codable" [(n.keyNames s).map plainCase]] := by
  have whole := Extension.display s.spaces prints
  rwa [Extension.sketch, type, conformance, keys] at whole

/-- The blocks of a structure or class. -/
theorem Nominal.display_productBlocks (given : s.Prints) (named : IsTypeName n.head.name)
    {ps : List (Field × List (List Token))} (fields : n.fields s.unknownType = ps.map Prod.fst)
    (each : ∀ p ∈ ps, p.1.Prints ∧ p.1.Carries p.2) (shape : n.head.kind.shape = .product)
    (o : Options) : ∃ vs, vs.Sublist (ps.flatMap Prod.snd) ∧
      Display (n.productBlocks o s) vs (n.sketches o s) := by
  have prints : ∀ f ∈ n.fields s.unknownType, f.Prints := by
    rw [fields]
    exact List.forall_mem_map.mpr fun p mem => (each p mem).1
  have initializer : Display [(n.memberwiseInit s).render s.indentUnit] (ps.flatMap Prod.snd)
      [.stateless "init" none] := by
    have whole := MemberwiseInit.display s.spaces each n.head.isPublic
    rwa [← fields] at whole
  have coding : Display [(Codable.ofFields n.head.name (n.fields s.unknownType) n.head.isPublic
      (n.head.kind == .classKind)).render s.indentUnit] []
      [n.extension "Codable" [(n.keyNames s).map plainCase]] := by
    refine display_coding (Codable.prints_ofFields named prints) rfl rfl ?_
    simp [Codable.outerCases_ofFields, keyNames, shape]
  have equal : (Equality.ofFields n.head.name (n.fields s.unknownType) n.head.isPublic).Prints :=
    Equality.prints_ofFields named prints
  have hashes : (Equality.hashOfFields n.head.name (n.fields s.unknownType)
      n.head.isPublic).Prints :=
    Equality.prints_hashOfFields named prints
  have stably : (Equality.stableHashOfFields s.stableHash n.head.name (n.fields s.unknownType)
      n.head.isPublic).Prints :=
    Equality.prints_stableHashOfFields given.stableHash named prints
  obtain ⟨vs, part, first⟩ := display_if o.memberwiseInit initializer
  obtain ⟨ws, none, second⟩ := display_if o.serialization coding
  obtain rfl := List.sublist_nil.mp none
  refine ⟨vs, part, ?_⟩
  have whole := first.append (second.append
    (display_equalities (n := n) (o := o) equal hashes stably ⟨rfl, rfl, rfl⟩))
  simpa [productBlocks, sketches, shape, Equality.fieldExtensions] using whole

/-- The blocks of an enumeration. -/
theorem Nominal.display_sumBlocks (given : s.Prints) (named : IsTypeName n.head.name)
    (prints : ∀ v ∈ n.variants, v.Prints) (shape : n.head.kind.shape = .sum) (o : Options) :
    Display (n.sumBlocks o s) [] (n.sketches o s) := by
  have coding : Display [(Codable.ofVariants n.head.name n.variants n.head.isPublic).render
      s.indentUnit] [] [n.extension "Codable" [(n.keyNames s).map plainCase]] := by
    refine display_coding (Codable.prints_ofVariants named prints) rfl rfl ?_
    simp [Codable.outerCases_ofVariants prints, keyNames, shape]
  have equal : (Equality.ofVariants n.head.name n.variants n.head.isPublic).Prints :=
    Equality.prints_ofVariants named prints
  have hashes : (Equality.hashOfVariants n.head.name n.variants n.head.isPublic).Prints :=
    Equality.prints_hashOfVariants named prints
  have stably : (Equality.stableHashOfVariants s.stableHash n.head.name n.variants
      n.head.isPublic).Prints :=
    Equality.prints_stableHashOfVariants given.stableHash named prints
  obtain ⟨ws, none, first⟩ := display_if o.serialization coding
  obtain rfl := List.sublist_nil.mp none
  have whole := first.append
    (display_equalities (n := n) (o := o) equal hashes stably ⟨rfl, rfl, rfl⟩)
  simpa [sumBlocks, sketches, shape, Equality.variantExtensions] using whole

/-- What is generated for several things, if it is known for each. -/
theorem display_flatMap {α : Type} {texts : α → List String} {values : α → List (List Token)}
    {sketches : α → List Sketch} {as : List α}
    (each : ∀ a ∈ as, ∃ vs, vs.Sublist (values a) ∧ Display (texts a) vs (sketches a)) :
    ∃ vs, vs.Sublist (as.flatMap values) ∧
      Display (as.flatMap texts) vs (as.flatMap sketches) := by
  induction as with
  | nil => exact ⟨[], .slnil, .nil⟩
  | cons a as ih =>
    obtain ⟨⟨vs, part, first⟩, later⟩ := List.forall_mem_cons.mp each
    obtain ⟨ws, part', second⟩ := ih later
    exact ⟨vs ++ ws, part.append part', first.append second⟩

end

/-! ## The blocks of a source -/

/-- The names of a type, of its fields and variants, and the labels are written without back
quotes and dollar signs. -/
def Nominal.IsBare (n : Nominal) (s : Settings) : Prop :=
  StartsBare n.head.name ∧ (∀ f ∈ n.fields s.unknownType, StartsBare f.name) ∧
    ∀ v ∈ n.variants, StartsBare v.name ∧ ∀ slot ∈ v.slots, StartsBare slot.label

instance (n : Nominal) (s : Settings) : Decidable (n.IsBare s) :=
  inferInstanceAs (Decidable (_ ∧ _ ∧ _))

section
variable {source : List Char} {i : Items} {s : Settings}
  (clean : (lex source).stray? = none) (tokens : i.tokens = (lex source).delivered)
include clean tokens

/-- The values of a source are sown in it. -/
theorem sown_values : ∃ rest,
    Sown (i.types.flatMap fun t => t.2.fieldPhrases.flatMap FieldPhrase.values) source rest := by
  obtain ⟨a, rest, rfl, stand, trailing⟩ := stand_delivered clean
  have order := i.inOrder_types.refine fun t _ => t.2.inOrder_values
  rw [tokens] at order
  have plain : StartsPlain (rest ++ []) := trailing.startsPlain (by simp [StartsPlain])
  rw [List.append_nil] at plain
  refine ⟨rest, sown_of_inOrder order (fun v mem => ?_) stand plain⟩
  obtain ⟨t, -, mem⟩ := List.mem_flatMap.mp mem
  obtain ⟨p, -, mem⟩ := List.mem_flatMap.mp mem
  cases value : p.value with
  | none => simp [FieldPhrase.values, valueTokens, value] at mem
  | some e =>
    obtain rfl : v = e.value.tokens := by
      simpa [FieldPhrase.values, valueTokens, value] using mem
    exact e.value.endsText

variable (clear : ∀ ts ∈ i.gather annotationPhrases, IsClear ts)
include clear

/-- The blocks of a type. -/
theorem display_declared (given : s.Prints) (o : Options) {t : Header × Items}
    (type : t ∈ i.types) (bare : (Items.declared t).IsBare s) :
    ∃ vs, vs.Sublist (t.2.fieldPhrases.flatMap FieldPhrase.values) ∧
      Display ((Items.declared t).blocks o s) vs ((Items.declared t).sketches o s) := by
  obtain ⟨name, fieldNames, variantNames⟩ := bare
  cases shape : (Items.declared t).head.kind.shape with
  | product =>
    have named := Header.isTypeName clean tokens type (fun other => by cases other ▸ shape) name
    let carried := t.2.fieldPhrases.map fun p => (p.field s.unknownType, p.values)
    have fields : (Items.declared t).fields s.unknownType = carried.map Prod.fst := by
      rw [List.map_map]
      exact t.2.filterMap_field? s.unknownType
    have each : ∀ p ∈ carried, p.1.Prints ∧ p.1.Carries p.2 := by
      refine List.forall_mem_map.mpr fun p mem => ?_
      have field : p.field s.unknownType ∈ (Items.declared t).fields s.unknownType := by
        rw [fields, List.map_map]
        exact List.mem_map_of_mem mem
      exact FieldPhrase.prints clean tokens type mem clear (fieldNames _ field) given.unknownType
    have whole := Nominal.display_productBlocks given named fields each shape o
    simpa [Nominal.blocks, shape, carried, List.flatMap_map] using whole
  | sum =>
    have named := Header.isTypeName clean tokens type (fun other => by cases other ▸ shape) name
    have each : ∀ v ∈ (Items.declared t).variants, v.Prints := by
      intro v mem
      obtain ⟨start, labels⟩ := variantNames v mem
      have leaves : (Items.declared t).variants =
          t.2.leaves.flatMap fun l => l.member.variants :=
        t.2.flatMap_members Member.variants fun _ _ => rfl
      rw [leaves] at mem
      obtain ⟨l, leaf, mem⟩ := List.mem_flatMap.mp mem
      cases l with
      | cases g =>
        obtain ⟨e, element, rfl⟩ := List.mem_map.mp mem
        obtain ⟨c, inside, rfl⟩ := List.mem_map.mp element
        exact CaseSyntax.prints clean tokens type leaf inside clear start labels
      | _ => cases mem
    refine ⟨[], List.nil_sublist _, ?_⟩
    have whole := Nominal.display_sumBlocks given named each shape o
    simpa [Nominal.blocks, shape] using whole
  | other =>
    refine ⟨[], List.nil_sublist _, ?_⟩
    simpa [Nominal.blocks, Nominal.sketches, shape] using Display.nil

end

/-! ## Reading generated code -/

theorem Declaration.flatMap_blocks (ds : List Declaration) (o : Options) (s : Settings) :
    ds.flatMap (Declaration.blocks · o s) =
      (ds.filterMap Declaration.nominal?).flatMap (Nominal.blocks · o s) := by
  have each (d : Declaration) :
      d.nominal?.toList.flatMap (Nominal.blocks · o s) = d.blocks o s := by
    cases d with
    | nominal n => exact List.append_nil _
    | _ => rfl
  rw [List.filterMap_eq_flatMap_toList, List.flatMap_assoc]
  simp only [each]

/-- Blocks with blank lines between them are lexed as their lexemes. -/
theorem lexes_joinBlocks {texts : List String} {ls : List Lexeme} {vs : List (List Token)}
    {source rest : List Char} (woven : AllWoven texts ls vs) (sown : Sown vs source rest) :
    Lexes (joinBlocks texts).toList ls [] := by
  cases woven with
  | nil => exact .done
  | cons first others =>
    have breaks : Breaks ['\n'] := by simp [Breaks]
    have quiet : Quiet ['\n'] := .of_chars (by decide) (by decide)
    have behind : Follows ['\n'] rest := fun p mem part => absurd part (quiet p mem)
    have blank : Lexes ['\n'] [] [] := .blank (by decide)
    have line := (AllWoven.cons first others).intercalate Woven.append_blank
    have whole := (line.lexes sown breaks behind).append blank
    simpa [joinBlocks, String.toList_append] using whole

namespace SourceFile

/-- Generated code is accepted, and it has the declarations that are asked for. -/
theorem exists_read_units {text : String} {filename : Option String} {f : SourceFile}
    {s : Settings} (accepted : read text filename = .ok f)
    (clear : ∀ i, readSyntax text.toList = .ok i → ∀ ts ∈ i.gather annotationPhrases, IsClear ts)
    (given : s.Prints) (bare : ∀ n ∈ f.nominals, n.IsBare s) (o : Options)
    (name : Option String) : ∃ g, read (renderUnits (f.units o s)) name = .ok g ∧
      g.declarations.map Declaration.sketch = f.nominals.flatMap (Nominal.sketches · o s) := by
  obtain ⟨i, clean, parsed, rfl⟩ := read_eq_ok.mp accepted
  obtain ⟨tokens, -⟩ := tokens_of_parse parsed
  have clear := clear i (readSyntax_eq_ok.mpr ⟨clean, parsed⟩)
  obtain ⟨rest, sown⟩ := sown_values clean tokens
  have nominals := i.nominals_declarations
  have each : ∀ t ∈ i.types, (Items.declared t).IsBare s := by
    intro t mem
    refine bare _ ?_
    rw [SourceFile.nominals, nominals]
    exact List.mem_map_of_mem mem
  obtain ⟨vs, part, ls, woven, fits⟩ :=
    display_flatMap fun t mem => display_declared clean tokens clear given o mem (each t mem)
  have blocks : renderUnits (units ⟨i.declarations, filename⟩ o s) =
      joinBlocks (i.types.flatMap fun t => (Items.declared t).blocks o s) := by
    rw [renderUnits_units, Declaration.flatMap_blocks, nominals, List.flatMap_map]
  have lexes := lexes_joinBlocks woven (sown.sublist part)
  rw [← blocks] at lexes
  obtain ⟨clean', lexemes⟩ := lex_of_lexes lexes
  have faced : Faced (lex (renderUnits (units ⟨i.declarations, filename⟩ o s)).toList).delivered
      (ls ++ []) := by
    rw [List.append_nil, Faced, face_delivered clean', lexemes]
  obtain ⟨j, us, whole, none, seen, firm⟩ := fits _ [] faced
  obtain rfl : us = [] := List.map_eq_nil_iff.mp none
  have parsed' := Items.parse_tokens (firm [])
  rw [← List.append_nil j.tokens, ← whole] at parsed'
  refine ⟨⟨j.declarations, name⟩, read_eq_ok.mpr ⟨j, clean', parsed', rfl⟩, ?_⟩
  rw [seen, SourceFile.nominals, nominals, List.flatMap_map]

/-- Generated code is accepted.  For each structure, class and enumeration of the source it has an
initializer and extensions, as far as they are asked for, and the conformance to coding declares
one key for each field or variant. -/
theorem read_generated {text : String} {filename : Option String} {f : SourceFile}
    (accepted : read text filename = .ok f)
    (clear : ∀ i, readSyntax text.toList = .ok i → ∀ ts ∈ i.gather annotationPhrases, IsClear ts)
    (bare : ∀ n ∈ f.nominals, n.IsBare {}) (o : Options) (name : Option String) :
    ∃ g, read (renderUnits (f.units o {})) name = .ok g ∧
      g.declarations.map Declaration.sketch = f.nominals.flatMap (Nominal.sketches · o {}) :=
  exists_read_units accepted clear Settings.prints_default bare o name

end SourceFile

/-- A structure, an enumeration and an extension. -/
def mixedText : String :=
  "public struct P<T> \x7b var x: [Int : T] = [:] ; static let z = 0 ; let y = a /* b \x7d\n" ++
    "enum E: Q \x7b case a, b(v: Int, String = \"s\") \x7d\nextension P: Q \x7b var z: T \x7d"

/-- Everything that can be asked for. -/
def allOptions : Options := ⟨true, true, true, true, true⟩

/-- What is generated then. -/
def mixedSketches : List Sketch :=
  [.stateless "init" none,
    .type .extensionKind "P" ["Codable"] [[plainCase "x", plainCase "y"]],
    .type .extensionKind "P" ["Equatable"] [], .type .extensionKind "P" ["Hashable"] [],
    .type .extensionKind "P" ["StableHashable"] [],
    .type .extensionKind "E" ["Codable"] [[plainCase "a", plainCase "b"]],
    .type .extensionKind "E" ["Equatable"] [], .type .extensionKind "E" ["Hashable"] [],
    .type .extensionKind "E" ["StableHashable"] []]

theorem SourceFile.read_mixedText :
    ∃ f g, read mixedText none = .ok f ∧ read (renderUnits (f.units allOptions {})) none = .ok g ∧
      g.declarations.map Declaration.sketch = mixedSketches := by
  have seen : (read mixedText none).toOption.map (fun f => (f.nominals.all (·.IsBare {}),
      f.nominals.flatMap (Nominal.sketches · allOptions {}))) = some (true, mixedSketches) := by
    decide +kernel
  have quiet : (readSyntax mixedText.toList).toOption.all (fun i =>
      (i.gather annotationPhrases).all (IsClear ·)) = true := by
    decide +kernel
  obtain ⟨f, accepted, found⟩ := exists_ok_of _ seen
  obtain ⟨bare, sketches⟩ := Prod.mk.inj found
  obtain ⟨g, read, same⟩ := SourceFile.read_generated accepted
    (fun i parsed ts mem => by
      rw [parsed] at quiet
      exact of_decide_eq_true (List.all_eq_true.mp quiet ts mem))
    (fun n mem => of_decide_eq_true (List.all_eq_true.mp bare n mem)) allOptions none
  exact ⟨f, g, accepted, read, same.trans sketches⟩

/-! ## A name that closes a comment -/

/-- A value that opens a comment, with a type in front of it whose name has the end of one in
it. -/
def closingNameText : String :=
  "struct S \x7b var t: @\x60a*/b\x60 Int; var v: Int = x /* y \x7d"

/-- The initializer and coding. -/
def codingOptions : Options := { serialization := true, memberwiseInit := true }

/-- What the structure says in front of its members. -/
def closingNameHead : NominalHead := ⟨⟨1, 1⟩, .structKind, "S", [], [], []⟩

/-- The fields of the structure. -/
def closingNameFields : List Field :=
  [⟨"t", "@\x60a*/b\x60 Int", none⟩, ⟨"v", "Int", some "x /* y"⟩]

/-- In the code for the fields the name closes the comment, and the back quote at its end opens a
name that is never closed. -/
theorem stray_closingName {f : SourceFile} {n : Nominal} (nominals : f.nominals = [n])
    (head : n.head = closingNameHead)
    (fields : n.fields "<unknown>" = closingNameFields) :
    (lex (renderUnits (f.units codingOptions {})).toList).stray?.isSome = true := by
  have unit : ({} : Settings).indentUnit = "    " := by decide
  have access : closingNameHead.isPublic = false := by decide
  have kind : (closingNameHead.kind == .classKind) = false := rfl
  have shape : closingNameHead.kind.shape = .product := rfl
  have name : closingNameHead.name = "S" := rfl
  have blocks : n.blocks codingOptions {} =
      ["\n".intercalate ((MemberwiseInit.lines ⟨closingNameFields, false⟩).map
          (Line.render "    ")),
        "\n".intercalate ((Codable.ofFields "S" closingNameFields false false).lines.map
          (Line.render "    "))] := by
    simp [Nominal.blocks, Nominal.productBlocks, Nominal.memberwiseInit, MemberwiseInit.render,
      Extension.render, Line.renderAll, codingOptions, Options.wantsEquality, head, access, kind,
      shape, name, fields, unit]
  rw [SourceFile.renderUnits_units, Declaration.flatMap_blocks, ← SourceFile.nominals, nominals]
  simp [blocks, closingNameFields, joinBlocks,
    MemberwiseInit.lines, MemberwiseInit.comment, MemberwiseInit.parameters,
    MemberwiseInit.assignments, Field.parameter, Field.assignment, Parameter.text, Assignment.text,
    Codable.ofFields, Codable.encodeFields, Codable.decodeFields, Codable.conformance,
    Extension.lines, Extension.separated, CodeMember.lines, Method.header, Statement.lines,
    Step.lines, Decoded.expression, Field.decoded, Store.name, outerKeys, accessWord, commaList,
    withCommas, nest, Line.nested, Line.render, List.replicate_succ, -String.intercalate_cons_cons,
    -String.reduceToList, -String.reduceAppend]
  decide +kernel

/-- In generated code the type stands behind the value, too, and its name closes the comment.
What is left of the name is nothing that could be read. -/
theorem SourceFile.read_closingName :
    ∃ f, read closingNameText none = .ok f ∧ (∀ n ∈ f.nominals, n.IsBare {}) ∧
      (∀ i, readSyntax closingNameText.toList = .ok i → ∀ ts ∈ i.gather annotationPhrases,
        ∀ t ∈ ts.tail, ∀ c ∈ t.layout.toList, isSpace c = true) ∧
      ∀ name g, read (renderUnits (f.units codingOptions {})) name ≠ .ok g := by
  have seen : (read closingNameText none).toOption.map (fun f => (f.nominals.all (·.IsBare {}),
      f.nominals.map fun n => (n.head, n.fields "<unknown>"))) =
      some (true, [(closingNameHead, closingNameFields)]) := by
    decide +kernel
  have blank : (readSyntax closingNameText.toList).toOption.all (fun i =>
      (i.gather annotationPhrases).all fun ts => ts.tail.all fun t => t.layout.toList.all isSpace) =
        true := by
    decide +kernel
  obtain ⟨f, accepted, found⟩ := exists_ok_of _ seen
  obtain ⟨bare, types⟩ := Prod.mk.inj found
  refine ⟨f, accepted, fun n mem => of_decide_eq_true (List.all_eq_true.mp bare n mem), ?_, ?_⟩
  · intro i parsed ts phrase t mem c inside
    rw [parsed] at blank
    have each := List.all_eq_true.mp (List.all_eq_true.mp blank ts phrase) t mem
    exact List.all_eq_true.mp each c inside
  · intro name g again
    obtain ⟨i, clean, -, -⟩ := read_eq_ok.mp again
    obtain ⟨n, nominals, same⟩ := List.map_eq_singleton_iff.mp types
    obtain ⟨head, fields⟩ := Prod.mk.inj same
    have stray := stray_closingName nominals head fields
    rw [clean] at stray
    cases stray

end Conformance
