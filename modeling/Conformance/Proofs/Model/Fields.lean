import Conformance.Model
import Conformance.Proofs.Grammar.Outline
import Conformance.Proofs.Token.Spelling
import Conformance.Proofs.Token.Tiling

/-!
# The fields of a derivation

What fields a row of members has can be read off its derivation, with the types and
values cut out of the source.  The fields of the members that are built from the row
are the same (`Items.fields_members`).

*Texts.*  A type in a declaration is a stretch of tokens.  It is the part of the source
that its tokens take up because the tokens of a source tile it, and those of a phrase
in a row are neighbours.

*Modifiers.*  A declaration knows its modifiers by their texts, a derivation by their
kinds.  The two agree because reserved words are spelled as they are.
-/

namespace Conformance.Grammar

namespace Forest

/-! ## Reading fields off a derivation -/

/-- Whether a property belongs to the type: it has `static` among its modifiers, or `class` in
front of its keyword. -/
def isTypeLevel (decl : Forest) : Bool :=
  ((decl.parts .declHead).flatMap (parts .modifier)).any
      (fun m => m.words.any (·.kind == .staticKw)) ||
    decl.words.any (·.kind == .classKw)

/-- Whether code stands behind a binding: accessors or observers. -/
def hasBlock (binding : Forest) : Bool :=
  !(binding.parts .accessorBlock).isEmpty || !(binding.parts .observerBlock).isEmpty

/-- The type that is written behind a pattern. -/
def typeTree? (binding : Forest) : Option Forest :=
  ((binding.parts .typeClause).head?).bind fun c => (c.parts .type).head?

/-- The value that is written behind a pattern. -/
def valueTree? (binding : Forest) : Option Forest :=
  ((binding.parts .initializer).flatMap (parts .expr)).head?

/-- The field of a binding, if its pattern is an identifier. -/
def boundField? (source : List Char) (unknownType : String) (binding : Forest) : Option Field :=
  (((binding.parts .bindingPattern).head?).bind identifier?).map fun name =>
    { name
      type := (binding.typeTree?.map fun t => Text.squash (Token.slice source t.tokens)).getD
        unknownType
      default := binding.valueTree?.map fun e => Token.slice source e.tokens }

/-- The field of a property: that of its first binding, if no code stands behind any and it does
not belong to the type. -/
def storedField? (source : List Char) (unknownType : String) (decl : Forest) : Option Field :=
  if (decl.parts .patternBinding).any hasBlock || decl.isTypeLevel then none
  else (decl.parts .patternBinding).head?.bind (boundField? source unknownType)

/-- The field of what stands below an item: that of a property declaration. -/
def itemField? (source : List Char) (unknownType : String) (item : Forest) : Option Field :=
  ((item.parts .decl).flatMap (parts .varDecl)).head?.bind (storedField? source unknownType)

/-- The field of a member, if it has one. -/
def field? (source : List Char) (unknownType : String) (member : Forest) : Option Field :=
  (member.parts .item).head?.bind (itemField? source unknownType)

/-! ## Texts -/

/-- What stands below a rule in a row are neighbours among the tokens of the row. -/
theorem parts_within {r : Rule} {f g : Forest} (h : g ∈ f.parts r) : g.tokens <:+: f.tokens := by
  induction f with
  | nil => cases h
  | leaf t rest ih => exact (ih h).trans (List.suffix_cons t rest.tokens).isInfix
  | node r' below rest _ ih =>
    simp only [parts] at h
    split at h
    · rcases List.mem_cons.mp h with rfl | later
      · exact (List.prefix_append _ _).isInfix
      · exact (ih later).trans (List.suffix_append _ _).isInfix
    · exact (ih h).trans (List.suffix_append _ _).isInfix

section
variable {source : List Char} {q : Nat} (unknownType : String)

theorem typeTree?_within {binding t : Forest} (h : binding.typeTree? = some t) :
    t.tokens <:+: binding.tokens := by
  obtain ⟨c, first, type⟩ := Option.bind_eq_some_iff.mp h
  exact (parts_within (List.mem_of_head? type)).trans (parts_within (List.mem_of_head? first))

theorem valueTree?_within {binding e : Forest} (h : binding.valueTree? = some e) :
    e.tokens <:+: binding.tokens := by
  obtain ⟨i, initializer, value⟩ := List.mem_flatMap.mp (List.mem_of_head? h)
  exact (parts_within value).trans (parts_within initializer)

/-- The field of a binding has the texts of the variable that it binds. -/
theorem boundField?_eq {binding : Forest} (tiles : Token.Tiles source q binding.tokens) :
    binding.boundField? source unknownType = binding.boundVariable.name.map fun name =>
      ⟨name, binding.boundVariable.type.getD unknownType, binding.boundVariable.value⟩ := by
  have type : binding.boundVariable.type =
      binding.typeTree?.map fun t => Text.squash (Token.slice source t.tokens) := by
    have stretch : binding.boundVariable.type =
        binding.typeTree?.map fun t => Text.squash (Token.stretch t.tokens) := by
      simp only [boundVariable, typeTree?]
      cases (binding.parts .typeClause).head? <;> rfl
    rw [stretch]
    refine Option.map_congr fun t found => ?_
    obtain ⟨q', tiles⟩ := tiles.within (typeTree?_within found)
    rw [Token.stretch_eq_slice tiles]
  have value : binding.boundVariable.value =
      binding.valueTree?.map fun e => Token.slice source e.tokens := by
    refine Option.map_congr fun e found => ?_
    obtain ⟨q', tiles⟩ := tiles.within (valueTree?_within found)
    exact Token.stretch_eq_slice tiles
  rw [boundField?, type, value]
  rfl

end

end Forest

/-! ## Storage -/

theorem accessorStorage_ne_stored (body : Run) : accessorStorage body ≠ .stored := by
  unfold accessorStorage
  split
  · split
    · split <;> exact Storage.noConfusion
    · exact Storage.noConfusion
  · exact Storage.noConfusion

theorem Binding.hasBlock_forest (b : Binding) : b.forest.hasBlock = (b.storage != .stored) := by
  cases b with
  | plain pattern clause initializer observers =>
    cases clause <;> cases initializer <;> cases observers <;>
      simp [forest, Forest.hasBlock, storage]
  | computed pattern clause accessors =>
    have block := accessorStorage_ne_stored accessors.body
    cases clause <;> simp [forest, Forest.hasBlock, storage, block]

namespace Property

/-- A property is stored if no code stands behind any of its bindings. -/
theorem any_hasBlock (p : Property) :
    (p.forest.parts .patternBinding).any Forest.hasBlock = (p.storage != .stored) := by
  have blocks : (p.forest.parts .patternBinding).any Forest.hasBlock =
      (p.bindings.toList.map Binding.storage).any (· != .stored) := by
    rw [p.parts_forest, List.any_map, List.any_map]
    congr 1
    funext b
    exact b.hasBlock_forest
  rw [blocks, storage]
  cases found : (p.bindings.toList.map Binding.storage).find? (· != .stored) with
  | none =>
    simpa using found
  | some s =>
    have here := List.find?_some found
    have mem := List.mem_of_find?_eq_some found
    rw [Option.getD_some, here]
    exact List.any_eq_true.mpr ⟨s, mem, here⟩

end Property

/-! ## Modifiers -/

namespace Modifier

/-- A modifier with a detail has a parenthesis in its text. -/
theorem text_detailed_ne (word : Word Kind.takesDetail) (opening : Tok .leftParen)
    (detail : Tok .name) (closing : Tok .rightParen) {s : String} (none : '(' ∉ s.toList) :
    (detailed word opening detail closing).text ≠ s := by
  rintro rfl
  simp [text] at none

theorem text_static {m : Modifier} (spelled : ∀ t ∈ m.tokens, t.Spelled) :
    m.text = "static" ↔ m.forest.words.any (·.kind == .staticKw) = true := by
  cases m with
  | plain word =>
    have here : word.val.Spelled := spelled word.val (by simp [tokens])
    simpa [text, forest, Word.text] using here.text_static word.property
  | detailed word opening detail closing =>
    have kind : ∀ k : Kind, k.takesDetail = true → k ≠ .staticKw := by decide
    have text := text_detailed_ne word opening detail closing (s := "static") (by decide)
    simp [text, forest, kind _ word.property]

theorem text_ne_class {m : Modifier} (spelled : ∀ t ∈ m.tokens, t.Spelled) :
    m.text ≠ "class" := by
  cases m with
  | plain word =>
    have here : word.val.Spelled := spelled word.val (by simp [tokens])
    exact here.text_ne_class word.property
  | detailed word opening detail closing =>
    exact text_detailed_ne word opening detail closing (by decide)

end Modifier

namespace Property

/-- The modifiers of a property, as they stand in its derivation. -/
theorem modifiers_forest (p : Property) :
    (p.forest.parts .declHead).flatMap (Forest.parts .modifier) =
      p.head.modifiers.map Modifier.forest := by
  have bindings : (p.bindings.forest fun b => .under .patternBinding b.forest).parts .declHead =
      [] := Listed.parts_forest_ne Binding.forest (by decide) p.bindings
  have word : (optionForest (fun w => .ofToken w.val) p.classWord : Forest).parts .declHead =
      [] := by cases p.classWord <;> rfl
  have attributes : (Forest.concat (p.head.attributes.map fun a =>
      .under .declAttr a.forest)).parts .modifier = [] := by
    simp [List.flatMap_map]
  have modifiers : (Forest.concat (p.head.modifiers.map fun m =>
      .under .modifier m.forest)).parts .modifier = p.head.modifiers.map Modifier.forest := by
    induction p.head.modifiers with
    | nil => rfl
    | cons m ms ih => simpa using ih
  have head : (p.forest.parts .declHead) = [.concat (p.head.attributes.map fun a =>
      .under .declAttr a.forest) ++ .concat (p.head.modifiers.map fun m =>
      .under .modifier m.forest)] := by
    simp [forest, Head.forest, bindings, word]
  rw [head, List.flatMap_singleton, Forest.parts_append, attributes, modifiers, List.nil_append]

/-- Only commas stand between bindings. -/
theorem words_bindings (l : Listed Binding) :
    (l.forest fun b => .under .patternBinding b.forest).words = l.others.map (·.1.val) := by
  obtain ⟨first, others⟩ := l
  rw [Listed.forest, Forest.words_append, Forest.words_under, List.nil_append]
  induction others with
  | nil => rfl
  | cons x xs ih => simpa using ih

theorem isTypeLevel_forest {p : Property} (spelled : ∀ t ∈ p.tokens, t.Spelled) :
    p.forest.isTypeLevel = p.declaration.isTypeLevel := by
  have each (m : Modifier) (mem : m ∈ p.head.modifiers) : ∀ t ∈ m.tokens, t.Spelled := by
    intro t here
    refine spelled t ?_
    simp only [tokens, Head.tokens, List.mem_append, List.mem_flatMap]
    exact .inl (.inl (.inr ⟨m, mem, here⟩))
  have static : (p.head.modifiers.map Modifier.text).contains "static" =
      (p.head.modifiers.map Modifier.forest).any fun m => m.words.any (·.kind == .staticKw) := by
    rw [Bool.eq_iff_iff, List.contains_iff_mem, List.any_map, List.any_eq_true, List.mem_map]
    constructor
    · rintro ⟨m, mem, text⟩
      exact ⟨m, mem, (Modifier.text_static (each m mem)).mp text⟩
    · rintro ⟨m, mem, word⟩
      exact ⟨m, mem, (Modifier.text_static (each m mem)).mpr word⟩
  have noClass : (p.head.modifiers.map Modifier.text).contains "class" = false := by
    rw [Bool.eq_false_iff, Ne, List.contains_iff_mem, List.mem_map]
    rintro ⟨m, mem, text⟩
    exact Modifier.text_ne_class (each m mem) text
  have word : p.forest.words.any (·.kind == .classKw) = p.classWord.isSome := by
    have commas : (p.bindings.others.map (·.1.val)).any (·.kind == .classKw) = false := by
      simp [Word.kind_eq]
    have head : p.head.forest.words = [] := rfl
    simp only [forest, Forest.words_append, words_bindings, head, Forest.words_under,
      List.nil_append, List.any_append, commas, Bool.or_false]
    cases p.classWord with
    | none => rfl
    | some w => simp [optionForest, w.kind_eq]
  rw [Forest.isTypeLevel, modifiers_forest, word, ← static, PropertyDecl.isTypeLevel]
  simp only [declaration, List.contains_append, noClass]
  cases p.classWord <;> simp

end Property

/-! ## Members -/

section
variable {source : List Char} {q : Nat} (unknownType : String)

/-- The field of a property is that of its derivation. -/
theorem Property.storedField?_forest {p : Property} (tiles : Token.Tiles source q p.tokens)
    (spelled : ∀ t ∈ p.tokens, t.Spelled) :
    p.forest.storedField? source unknownType = p.declaration.field? unknownType := by
  have first : (p.forest.parts .patternBinding).head? = some p.bindings.first.forest := by
    rw [p.parts_forest]
    rfl
  have within : p.bindings.first.forest.tokens <:+: p.tokens := by
    rw [← p.tokens_forest]
    exact Forest.parts_within (List.mem_of_head? first)
  obtain ⟨q', tiles⟩ := tiles.within within
  have bound := Forest.boundField?_eq unknownType tiles
  rw [Forest.storedField?, p.any_hasBlock, isTypeLevel_forest spelled, first, Option.bind_some,
    bound, Binding.boundVariable_forest, PropertyDecl.field?]
  cases stored : p.storage <;> cases level : p.declaration.isTypeLevel <;>
    simp [declaration, stored, Listed.toList]

theorem Leaf.itemField?_forest {l : Leaf} (tiles : Token.Tiles source q l.tokens)
    (spelled : ∀ t ∈ l.tokens, t.Spelled) :
    (Forest.under .decl (.under l.rule l.forest)).itemField? source unknownType =
      l.member.field? unknownType := by
  cases l with
  | property p => exact Property.storedField?_forest unknownType tiles spelled
  | _ => rfl

namespace Items

/-- The fields of the members that a row declares are those of its derivation, one by one. -/
theorem fields_members {i : Items} (tiles : Token.Tiles source q i.tokens)
    (spelled : ∀ t ∈ i.tokens, t.Spelled) :
    i.members.filterMap (Member.field? unknownType) =
      (i.forest.parts .item).filterMap (Forest.itemField? source unknownType) := by
  induction i generalizing q with
  | nil => rfl
  | semicolon mark rest ih =>
    exact ih tiles.2 fun t mem => spelled t (.tail _ mem)
  | leaf l rest ih =>
    have others := ih tiles.right fun t mem => spelled t (List.mem_append_right _ mem)
    have here := Leaf.itemField?_forest unknownType tiles.left
      fun t mem => spelled t (List.mem_append_left _ mem)
    rw [members, List.filterMap_cons, others, ← here]
    rfl
  | nominal header opening inner closing rest _ ih =>
    have ne : ∀ k, nominalRule k ≠ .varDecl := by decide
    have tiles' : Token.Tiles source q ((header.tokens ++ opening.val :: inner.tokens ++
        [closing.val]) ++ rest.tokens) := by
      simpa [tokens] using tiles
    have others := ih tiles'.right fun t mem => spelled t (by simp [tokens, mem])
    have here : (Forest.under .decl (.under (nominalRule header.keyword.kind)
        (header.forest (.under .memberBlock (.ofToken opening.val ++
          (inner.forest ++ .ofToken closing.val)))))).itemField? source unknownType = none := by
      simp [Forest.itemField?, ne]
    simp only [members, forest, Forest.parts, List.filterMap_cons, here, Member.field?, if_true]
    exact others

end Items

end

end Conformance.Grammar
