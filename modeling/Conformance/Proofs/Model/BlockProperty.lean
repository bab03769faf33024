import Conformance.Proofs.Grammar.Bodies
import Conformance.Proofs.Grammar.Exactness
import Conformance.Proofs.Model.SourceFields
import Conformance.Proofs.Token.Edits

/-!
# Properties with a block

What a block behind a property is depends on two things: whether there is a value in front of
it, and whether its first token is the word of an observer.

* Without a value the block holds accessors or observers, and the property is not stored.
* With a value and the word of an observer it holds observers, and the value is what stands in
  front of it.
* With a value and anything else in front it is the last group of the value, and the property
  is stored.

The word is looked at when braces are marked, which is before anything is parsed, so the mark of
the brace tells the parser which of the two rules to take (`kind_of_brace`).
-/

namespace Conformance

open Grammar

/-! ## Marked braces -/

/-- A brace is marked just if the word of an observer is behind it. -/
theorem kind_of_brace {source : List Char} (clean : (lex source).stray? = none)
    {front back : List Token} {brace : Token}
    (whole : (lex source).delivered = front ++ brace :: back)
    (is : brace.kind.unmarked = .leftBrace) :
    brace.kind = if back.head?.any Token.opensObserver then .observerBrace else .leftBrace := by
  have kind : brace.kind = if brace.lexeme.kind == .leftBrace &&
      (back.map Token.lexeme).head?.any Lexeme.opensObserver then .observerBrace
      else brace.lexeme.kind :=
    congrArg Prod.fst (List.cons.inj (face_behind clean whole)).1
  have lexeme : brace.lexeme.kind = .leftBrace := is
  have next : (back.map Token.lexeme).head?.any Lexeme.opensObserver =
      back.head?.any Token.opensObserver := by
    cases back with
    | nil => rfl
    | cons t ts => exact t.opensObserver_lexeme
  rw [kind, lexeme, next]
  rfl

namespace Grammar

/-! ## Trees and phrases -/

theorem exists_typeSyntax {f : Forest} (h : Derives (.part .type) f) :
    ∃ t : TypeSyntax, t.tokens = f.tokens := by
  obtain ⟨_, ⟨t, rfl⟩, rfl⟩ := h.holds IsPhrase.of_holds
  exact ⟨t, by simp⟩

theorem exists_expression {f : Forest} (h : Derives (.part .expr) f) :
    ∃ e : Expression, e.tokens = f.tokens := by
  obtain ⟨_, ⟨e, rfl⟩, rfl⟩ := h.holds IsPhrase.of_holds
  exact ⟨e, by simp⟩

/-- An expression with a closure behind it. -/
def Expression.trailing (e : Expression) (g : Group .brace) : Expression :=
  ⟨e.first, e.others ++ [.plain (.group .brace rfl g)]⟩

@[simp] theorem Expression.tokens_trailing (e : Expression) (g : Group .brace) :
    (e.trailing g).tokens = e.tokens ++ g.tokens := by
  simp [trailing, tokens, ExpressionAtom.tokens, Atom.tokens]

end Grammar

/-! ## A property with a block in a source -/

/-- A structure with one property, which has a block behind it. -/
structure BlockProperty where
  /-- What stands in front of the braces of the structure. -/
  header : Header
  /-- The brace in front of the property. -/
  opening : Tok .leftBrace
  /-- The word `var`. -/
  binder : Tok .varKw
  /-- The name. -/
  name : Word Kind.isIdentifier
  /-- The type, behind a colon. -/
  type : Option (Tok .colon × Forest)
  /-- The initial value, behind an equals sign. -/
  value : Option (Tok .equal × Forest)
  /-- The brace that opens the block. -/
  brace : Token
  /-- What the block holds. -/
  inside : List Token
  /-- The brace that closes the block. -/
  close : Tok .rightBrace
  /-- The brace behind the property. -/
  closing : Tok .rightBrace

namespace BlockProperty

/-- The tokens of the block. -/
def block (d : BlockProperty) : List Token := d.brace :: d.inside ++ [d.close.val]

/-- The tokens of the type, with the colon. -/
def typeTokens (d : BlockProperty) : List Token :=
  optionTokens (fun x => x.1.val :: x.2.tokens) d.type

/-- The tokens of the value, with the equals sign. -/
def valueTokens (d : BlockProperty) : List Token :=
  optionTokens (fun x => x.1.val :: x.2.tokens) d.value

/-- The tokens of the property behind `var`. -/
def binding (d : BlockProperty) : List Token :=
  d.name.val :: d.typeTokens ++ d.valueTokens ++ d.block

/-- The tokens of the source. -/
def tokens (d : BlockProperty) : List Token :=
  d.header.tokens ++ d.opening.val :: d.binder.val :: d.binding ++ [d.closing.val]

/-- Whether the word of an observer is in front of all else in the block. -/
def observes (d : BlockProperty) : Bool := d.inside.head?.any Token.opensObserver

/-- The type and the value are derivable, and the block is level. -/
structure WellFormed (d : BlockProperty) : Prop where
  /-- It is a structure. -/
  keyword : d.header.keyword.kind = .structKw
  /-- The type is one. -/
  type : ∀ x ∈ d.type, Derives (.part .type) x.2
  /-- The value is an expression. -/
  value : ∀ x ∈ d.value, Derives (.part .expr) x.2
  /-- A brace opens the block. -/
  brace : d.brace.kind.unmarked = .leftBrace
  /-- Brackets in the block are balanced. -/
  level : IsLevel (d.inside.map Token.kind)

variable {d : BlockProperty}

/-- The property with a binding in place of its tokens. -/
def property (d : BlockProperty) (b : Binding) : Property :=
  ⟨⟨[], []⟩, none, ⟨d.binder.val, by rw [d.binder.kind_eq]; rfl⟩, ⟨b, []⟩⟩

/-- The structure with a binding in place of the tokens of its property. -/
def row (d : BlockProperty) (b : Binding) : Items :=
  .nominal d.header d.opening (.leaf (.property (d.property b)) .nil) d.closing .nil

/-- What the source declares, with a binding in place of the tokens of its property. -/
def nominal (d : BlockProperty) (b : Binding) : Nominal :=
  ⟨d.header.nominalHead, [.property (d.property b).declaration]⟩

/-- A source is read with any binding that has the tokens of its property. -/
theorem read_row {text : String} (clean : (lex text.toList).stray? = none)
    (tokens : (lex text.toList).delivered = d.tokens) {b : Binding} (same : b.tokens = d.binding)
    (filename : Option String) :
    SourceFile.read text filename = .ok ⟨[.nominal (d.nominal b)], filename⟩ := by
  have propertyTokens : (d.property b).tokens = d.binder.val :: d.binding := by
    simp [property, Property.tokens, Head.tokens, optionTokens, Listed.tokens, same]
  have rowTokens : (d.row b).tokens = d.tokens := by
    simp [row, Items.tokens, Leaf.tokens, propertyTokens, BlockProperty.tokens]
  have off : (Leaf.property (d.property b)).forest.EndsOffDot := by
    intro t last
    have brace : t = d.close.val := by
      have front : d.binder.val :: d.binding = (d.binder.val :: d.name.val :: d.typeTokens ++
          d.valueTokens ++ d.brace :: d.inside) ++ [d.close.val] := by
        simp [binding, block]
      rw [Leaf.tokens_forest, Leaf.tokens, propertyTokens, front, List.getLast?_concat] at last
      exact (Option.some.inj last).symm
    rw [brace, d.close.kind_eq]
    decide
  have settled : (d.row b).forest.Settled [] :=
    Items.settled_nominal_iff.mpr
      ⟨Items.settled_leaf_iff.mpr ⟨Leaf.settled_of_endsOffDot off _, trivial⟩, trivial⟩
  refine SourceFile.read_eq_ok.mpr ⟨d.row b, clean, ?_, rfl⟩
  rw [tokens, ← rowTokens]
  exact Items.parse_tokens settled

/-! ### What is recorded -/

/-- The type of the property as it is written. -/
def typeText (d : BlockProperty) (source : List Char) : Option String :=
  d.type.map fun x => Text.squash (Token.slice source x.2.tokens)

/-- What stands behind the equals sign is in the source. -/
theorem value_within {x : Tok .equal × Forest} (given : d.value = some x) :
    x.2.tokens ++ d.block <:+: d.tokens := by
  refine ⟨d.header.tokens ++ d.opening.val :: d.binder.val :: d.name.val ::
    d.typeTokens ++ [x.1.val], [d.closing.val], ?_⟩
  simp [BlockProperty.tokens, binding, valueTokens, given, optionTokens]

theorem storage_property (b : Binding) : (d.property b).declaration.storage = b.storage := by
  have storage : (d.property b).declaration.storage =
      ([b.storage].find? (· != .stored)).getD .stored := rfl
  rw [storage]
  cases b.storage <;> rfl

/-- The only field is that of the property, if it is stored. -/
theorem fields_nominal {b : Binding} {name : String} (named : b.declared.name = some name)
    (unknownType : String) : (d.nominal b).fields unknownType =
      if b.storage = .stored then [⟨name, b.declared.type.getD unknownType, b.declared.value⟩]
      else [] := by
  have storage := d.storage_property b
  have field : (d.property b).declaration.field? unknownType =
      if b.storage = .stored then some ⟨name, b.declared.type.getD unknownType, b.declared.value⟩
      else none := by
    have bindings : (d.property b).declaration.bindings = [b.declared] := rfl
    have typeLevel : (d.property b).declaration.isTypeLevel = false := rfl
    simp [PropertyDecl.field?, storage, bindings, typeLevel, named]
  have only : (d.nominal b).fields unknownType =
      ((d.property b).declaration.field? unknownType).toList := by
    simp only [Nominal.fields, nominal, List.filterMap_cons, Member.field?]
    cases (d.property b).declaration.field? unknownType <;> rfl
  rw [only, field]
  split <;> rfl

/-- A source is read as what a binding with the tokens of its property declares. -/
theorem read_binding {text : String} (clean : (lex text.toList).stray? = none)
    (tokens : (lex text.toList).delivered = d.tokens) (wellFormed : d.WellFormed) {b : Binding}
    (same : b.tokens = d.binding) {type value : Option String}
    (declared : b.declared = ⟨some d.name.text, type, value⟩) (filename : Option String) :
    ∃ n p, SourceFile.read text filename = .ok ⟨[.nominal n], filename⟩ ∧
      n.head.kind = .structKind ∧ n.members = [.property p] ∧
      p.bindings = [⟨some d.name.text, type, value⟩] ∧ p.storage = b.storage ∧
      ∀ u, n.fields u =
        if b.storage = .stored then [⟨d.name.text, type.getD u, value⟩] else [] := by
  refine ⟨d.nominal b, (d.property b).declaration, read_row clean tokens same filename, ?_, rfl,
    declared ▸ rfl, storage_property b, fun u => ?_⟩
  · rw [nominal, Header.nominalHead, wellFormed.keyword]
    rfl
  · rw [fields_nominal (by rw [declared]), declared]

section
variable {text : String} (tokens : (lex text.toList).delivered = d.tokens)
include tokens

/-- Neighbours in the source are recorded with all that is between them. -/
theorem stretch_eq_slice {ts : List Token} (within : ts <:+: d.tokens) :
    Token.stretch ts = Token.slice text.toList ts := by
  rw [← tokens] at within
  obtain ⟨q, tiles⟩ := (tiles_delivered text.toList).within within
  exact Token.stretch_eq_slice tiles

variable (wellFormed : d.WellFormed)
include wellFormed

/-- The type is one of the grammar. -/
theorem exists_clause : ∃ clause : Option TypeClause,
    optionTokens TypeClause.tokens clause = d.typeTokens ∧
      clause.map (fun c => c.type.text) = d.typeText text.toList := by
  cases written : d.type with
  | none => exact ⟨none, by simp [typeTokens, written, optionTokens], by simp [typeText, written]⟩
  | some x =>
    obtain ⟨t, same⟩ := exists_typeSyntax (wellFormed.type x written)
    have within : x.2.tokens <:+: d.tokens := by
      refine ⟨d.header.tokens ++ d.opening.val :: d.binder.val :: d.name.val :: [x.1.val],
        d.valueTokens ++ d.block ++ [d.closing.val], ?_⟩
      simp [BlockProperty.tokens, binding, typeTokens, written, optionTokens]
    refine ⟨some ⟨x.1, t⟩, ?_, ?_⟩
    · simp [typeTokens, written, optionTokens, TypeClause.tokens, same]
    · simp [typeText, written, TypeSyntax.text, same, stretch_eq_slice tokens within]

/-- The value is one of the grammar. -/
theorem exists_initializer : ∃ i : Option Initializer,
    optionTokens Initializer.tokens i = d.valueTokens ∧
      i.map (fun i => i.value.text) = d.value.map fun x => Token.slice text.toList x.2.tokens := by
  cases given : d.value with
  | none => exact ⟨none, by simp [valueTokens, given, optionTokens], rfl⟩
  | some x =>
    obtain ⟨e, same⟩ := exists_expression (wellFormed.value x given)
    have within := (List.prefix_append _ _).isInfix.trans (value_within given)
    refine ⟨some ⟨x.1, e⟩, ?_, ?_⟩
    · simp [valueTokens, given, optionTokens, Initializer.tokens, same]
    · simp [Expression.text, same, stretch_eq_slice tokens within]

variable (clean : (lex text.toList).stray? = none)
include clean

/-- The mark of the brace tells what is behind it. -/
theorem kind_brace : d.brace.kind = if d.observes then .observerBrace else .leftBrace := by
  have whole : (lex text.toList).delivered = (d.header.tokens ++ d.opening.val :: d.binder.val ::
      d.name.val :: d.typeTokens ++ d.valueTokens) ++
        d.brace :: (d.inside ++ [d.close.val, d.closing.val]) := by
    rw [tokens]
    simp [BlockProperty.tokens, binding, block]
  have next : (d.inside ++ [d.close.val, d.closing.val]).head?.any Token.opensObserver =
      d.observes := by
    cases inside : d.inside with
    | nil => simp [observes, inside, Token.opensObserver, d.close.kind_eq]
    | cons t ts => simp [observes, inside]
  rw [kind_of_brace clean whole wellFormed.brace, next]

/-- The block is a group of the kind that its brace opens. -/
theorem exists_block {b : Bracket}
    (opens : b.opener = if d.observes then .observerBrace else .leftBrace)
    (closes : b.closer = .rightBrace) : ∃ g : Group b, g.tokens = d.block :=
  exists_group ((kind_brace tokens wellFormed clean).trans opens.symm)
    (d.close.kind_eq.trans closes.symm) wellFormed.level

/-- With the word of an observer in front, the block is read as observers. -/
theorem exists_observed (observes : d.observes = true) :
    ∃ b : Binding, b.tokens = d.binding ∧ b.storage = .observed ∧
      b.declared = ⟨some d.name.text, d.typeText text.toList,
        d.value.map fun x => Token.slice text.toList x.2.tokens⟩ := by
  obtain ⟨clause, type, typeText⟩ := exists_clause tokens wellFormed
  obtain ⟨initializer, value, valueText⟩ := exists_initializer tokens wellFormed
  obtain ⟨g, group⟩ := exists_block tokens wellFormed clean (b := .observer)
    (by rw [observes]; rfl) rfl
  refine ⟨.plain (.name d.name) clause initializer (some g), ?_, rfl, ?_⟩
  · rw [Binding.tokens, type, value, optionTokens, group]
    rfl
  · rw [Binding.declared, ← typeText, ← valueText]
    rfl

/-- Without a value, any other block is read as accessors. -/
theorem exists_accessed (observes : d.observes = false) (none : d.value = none) :
    ∃ b : Binding, b.tokens = d.binding ∧ b.storage ≠ .stored ∧
      b.declared = ⟨some d.name.text, d.typeText text.toList, .none⟩ := by
  obtain ⟨clause, type, typeText⟩ := exists_clause tokens wellFormed
  obtain ⟨g, group⟩ := exists_block tokens wellFormed clean (b := .brace)
    (by rw [observes]; rfl) rfl
  refine ⟨.computed (.name d.name) clause g, ?_, accessorStorage_ne_stored _, ?_⟩
  · rw [Binding.tokens, type, group, binding, valueTokens, none, optionTokens, List.append_nil]
    rfl
  · rw [Binding.declared, ← typeText]
    rfl

/-- With a value, any other block is read as a part of it. -/
theorem exists_stored (observes : d.observes = false) {x : Tok .equal × Forest}
    (given : d.value = some x) :
    ∃ b : Binding, b.tokens = d.binding ∧ b.storage = .stored ∧
      b.declared = ⟨some d.name.text, d.typeText text.toList,
        some (Token.slice text.toList (x.2.tokens ++ d.block))⟩ := by
  obtain ⟨clause, type, typeText⟩ := exists_clause tokens wellFormed
  obtain ⟨e, same⟩ := exists_expression (wellFormed.value x given)
  obtain ⟨g, group⟩ := exists_block tokens wellFormed clean (b := .brace)
    (by rw [observes]; rfl) rfl
  have whole : (e.trailing g).tokens = x.2.tokens ++ d.block := by
    rw [Expression.tokens_trailing, same, group]
  refine ⟨.plain (.name d.name) clause (some ⟨x.1, e.trailing g⟩) none, ?_, rfl, ?_⟩
  · rw [Binding.tokens, type, optionTokens, Initializer.tokens, whole, binding, valueTokens, given]
    simp [PatternTree.tokens, optionTokens]
  · rw [Binding.declared, ← typeText, Option.map_some, Expression.text, whole,
      stretch_eq_slice tokens (value_within given)]
    rfl

end

end BlockProperty

/-- A property with a block, alone in a structure.  Without a value it is not stored.  With a
value and the word of an observer in front of the block it is observed, and its value is the
expression that is written.  Otherwise it is stored, and its value goes on to the end of the
block.  It is a field in this last case alone. -/
theorem SourceFile.read_blockProperty {d : BlockProperty} (wellFormed : d.WellFormed)
    {text : String} (clean : (lex text.toList).stray? = none)
    (tokens : (lex text.toList).delivered = d.tokens) (filename : Option String) :
    ∃ n p value, read text filename = .ok ⟨[.nominal n], filename⟩ ∧
      n.head.kind = .structKind ∧ n.members = [.property p] ∧
      p.bindings = [⟨some d.name.text, d.typeText text.toList, value⟩] ∧
      (d.value = none → value = none ∧ p.storage ≠ .stored ∧ ∀ u, n.fields u = []) ∧
      (∀ x ∈ d.value, d.observes = true →
        value = some (Token.slice text.toList x.2.tokens) ∧ p.storage = .observed ∧
          ∀ u, n.fields u = []) ∧
      (∀ x ∈ d.value, d.observes = false →
        value = some (Token.slice text.toList (x.2.tokens ++ d.block)) ∧ p.storage = .stored ∧
          ∀ u, n.fields u =
            [⟨d.name.text, (d.typeText text.toList).getD u, value⟩]) := by
  cases observes : d.observes with
  | true =>
    obtain ⟨b, same, storage, declared⟩ := d.exists_observed tokens wellFormed clean observes
    obtain ⟨n, p, accepted, kind, members, bindings, is, fields⟩ :=
      d.read_binding clean tokens wellFormed same declared filename
    rw [storage] at is fields
    refine ⟨n, p, _, accepted, kind, members, bindings, fun none => ?_, fun x given _ => ?_, ?_⟩
    · exact ⟨by rw [none]; rfl, by rw [is]; decide, fields⟩
    · exact ⟨by rw [given]; rfl, is, fields⟩
    · rintro x - ⟨⟩
  | false =>
    cases given : d.value with
    | none =>
      obtain ⟨b, same, storage, declared⟩ :=
        d.exists_accessed tokens wellFormed clean observes given
      obtain ⟨n, p, accepted, kind, members, bindings, is, fields⟩ :=
        d.read_binding clean tokens wellFormed same declared filename
      simp only [storage, if_false] at fields
      refine ⟨n, p, none, accepted, kind, members, bindings, fun _ => ⟨rfl, ?_, fields⟩, ?_, ?_⟩
      · rw [is]
        exact storage
      · rintro x ⟨⟩
      · rintro x ⟨⟩
    | some x =>
      obtain ⟨b, same, storage, declared⟩ := d.exists_stored tokens wellFormed clean observes given
      obtain ⟨n, p, accepted, kind, members, bindings, is, fields⟩ :=
        d.read_binding clean tokens wellFormed same declared filename
      rw [storage] at is fields
      refine ⟨n, p, _, accepted, kind, members, bindings, ?_, ?_, fun y same _ => ?_⟩
      · rintro ⟨⟩
      · rintro y - ⟨⟩
      · obtain rfl := Option.some.inj same
        exact ⟨rfl, is, fields⟩

/-- The text of a structure with a property, and a word in front in its block. -/
def wordText (word : String) : String :=
  "public struct S \x7b var n = 5 \x7b " ++ word ++ " \x7b \x7d \x7d \x7d"

/-- That property, for a word of six characters and the kind of its brace. -/
def wordProperty (word : String) (brace : Kind) : BlockProperty where
  header := .structured ⟨[], [.plain ⟨tokenAt .publicKw "" "public" 0, rfl⟩]⟩
    ⟨tokenAt .structKw " " "struct" 7, rfl⟩ (tokAt .name " " "S" 14) none none none
  opening := tokAt .leftBrace " " "\x7b" 16
  binder := tokAt .varKw " " "var" 18
  name := ⟨tokenAt .name " " "n" 22, rfl⟩
  type := none
  value := some (tokAt .equal " " "=" 24,
    .under .expr (Expression.forest ⟨.plain (.word ⟨tokenAt .number " " "5" 26, rfl⟩), []⟩))
  brace := tokenAt brace " " "\x7b" 28
  inside := [tokenAt .name " " word 30, tokenAt .leftBrace " " "\x7b" 37,
    tokenAt .rightBrace " " "\x7d" 39]
  close := tokAt .rightBrace " " "\x7d" 41
  closing := tokAt .rightBrace " " "\x7d" 43

theorem wellFormed_wordProperty (word : String) {brace : Kind}
    (is : brace.unmarked = .leftBrace) : (wordProperty word brace).WellFormed where
  keyword := rfl
  type := nofun
  value := by
    rintro x ⟨⟩
    exact Expression.derives _
  brace := is
  level := by
    show IsLevel [.name, .leftBrace, .rightBrace]
    decide

theorem SourceFile.read_wordText :
    (∃ n p, read (wordText "didSet") none = .ok ⟨[.nominal n], none⟩ ∧ n.members = [.property p] ∧
      p.storage = .observed ∧ n.fields "Int" = []) ∧
    ∃ n p, read (wordText "notSet") none = .ok ⟨[.nominal n], none⟩ ∧ n.members = [.property p] ∧
      p.storage = .stored ∧ n.fields "Int" =
        [⟨"n", "Int", some "5 \x7b notSet \x7b \x7d \x7d"⟩] := by
  constructor
  · have wellFormed : (wordProperty "didSet" .observerBrace).WellFormed :=
      wellFormed_wordProperty _ rfl
    have clean : (lex (wordText "didSet").toList).stray? = none := by decide +kernel
    obtain ⟨n, p, _, accepted, -, members, -, -, observed, -⟩ :=
      read_blockProperty wellFormed clean (by decide +kernel) none
    obtain ⟨-, storage, fields⟩ := observed _ rfl (by decide)
    exact ⟨n, p, accepted, members, storage, fields "Int"⟩
  · have wellFormed : (wordProperty "notSet" .leftBrace).WellFormed :=
      wellFormed_wordProperty _ rfl
    have clean : (lex (wordText "notSet").toList).stray? = none := by decide +kernel
    obtain ⟨n, p, value, accepted, -, members, -, -, -, stored⟩ :=
      read_blockProperty wellFormed clean (by decide +kernel) none
    obtain ⟨is, storage, fields⟩ := stored _ rfl (by decide)
    refine ⟨n, p, accepted, members, storage, (fields "Int").trans ?_⟩
    rw [is]
    decide +kernel

end Conformance
