import Conformance.Proofs.Grammar.Soundness

/-!
# What is read of a declaration is what was written

Soundness of the parsers of heads, headers, properties, cases and leaves, and of
rows of declarations.  A parser that goes on behind a head is given the span of
the head and comes to a span from the head's first token on.
-/

namespace Conformance.Grammar

/-! ## Heads -/

theorem Attribute.sound (fuel : Nat) : Sound Attribute.forest (Attribute.parse fuel) := by
  intro ts a rest h
  obtain ⟨sign, mid₁, h₁, h⟩ := Parser.bind_eq_done.mp h
  obtain ⟨name, mid₂, h₂, h⟩ := Parser.bind_eq_done.mp h
  obtain ⟨arguments, mid₃, h₃, h⟩ := Parser.bind_eq_done.mp h
  cases h
  have group := (Group.sound .paren fuel).under (r := .parenGroup) (by decide)
  exact .append (.token h₁) (.append (.token h₂) (group.optional _ _ _ h₃))

theorem Modifier.sound : Sound Modifier.forest Modifier.parse := by
  intro ts m rest h
  simp only [parse, Parser.peek_bind, Parser.peekSecond_bind] at h
  split at h
  · obtain ⟨word, mid₁, h₁, h⟩ := Parser.bind_eq_done.mp h
    obtain ⟨opening, mid₂, h₂, h⟩ := Parser.bind_eq_done.mp h
    obtain ⟨detail, mid₃, h₃, h⟩ := Parser.bind_eq_done.mp h
    obtain ⟨closing, mid₄, h₄, h⟩ := Parser.bind_eq_done.mp h
    cases h
    have inner := Forest.Spans.append (.token h₂) (.append (.token h₃) (.token h₄))
    exact .append (.word h₁) (inner.under (by decide))
  · obtain ⟨word, read, rfl⟩ := Parser.map_eq_done.mp h
    exact .word read

theorem Head.sound (fuel : Nat) : Sound Head.forest (Head.parse fuel) := by
  intro ts d rest h
  obtain ⟨attributes, mid, h₁, h⟩ := Parser.bind_eq_done.mp h
  obtain ⟨modifiers, last, h₂, h⟩ := Parser.bind_eq_done.mp h
  cases h
  have front := ((Attribute.sound fuel).under (r := .declAttr) (by decide)).many fuel _ _ _ h₁
  have back := (Modifier.sound.under (r := .modifier) (by decide)).many fuel _ _ _ h₂
  exact (front.append back).under (by decide)

/-- What is read behind a forest, together with that forest, spans the tokens of both. -/
def SoundBehind {α : Type} (front : Forest) (forest : α → Forest) (p : Parser α) : Prop :=
  ∀ ts mid a rest, front.Spans ts mid → p mid = .done a rest → (forest a).Spans ts rest

/-! ## Headers -/

theorem GenericParameter.sound (fuel : Nat) :
    Sound GenericParameter.forest (GenericParameter.parse fuel) := by
  intro ts p rest h
  obtain ⟨name, mid, h₁, h⟩ := Parser.bind_eq_done.mp h
  obtain ⟨constraint, last, h₂, h⟩ := Parser.bind_eq_done.mp h
  cases h
  exact .append (.token h₁) ((TypeClause.sound fuel).optional _ _ _ h₂)

theorem GenericClause.sound (fuel : Nat) :
    Sound GenericClause.forest (GenericClause.parse fuel) := by
  intro ts c rest h
  obtain ⟨opening, mid₁, h₁, h⟩ := Parser.bind_eq_done.mp h
  obtain ⟨parameters, mid₂, h₂, h⟩ := Parser.bind_eq_done.mp h
  obtain ⟨closing, mid₃, h₃, h⟩ := Parser.bind_eq_done.mp h
  cases h
  have inner := ((GenericParameter.sound fuel).under (r := .genericParam) (by decide)).listed fuel
  exact .append (.token h₁) (.append (inner _ _ _ h₂) (.token h₃))

theorem Inheritance.sound (fuel : Nat) : Sound Inheritance.forest (Inheritance.parse fuel) := by
  intro ts i rest h
  obtain ⟨colon, mid, h₁, h⟩ := Parser.bind_eq_done.mp h
  obtain ⟨types, last, h₂, h⟩ := Parser.bind_eq_done.mp h
  cases h
  have inner := ((TypeTree.sound fuel .whole).under (r := .type) (by decide)).listed fuel
  exact .append (.token h₁) (inner _ _ _ h₂)

theorem WhereClause.sound (fuel : Nat) : Sound WhereClause.forest (WhereClause.parse fuel) := by
  intro ts w rest h
  obtain ⟨keyword, mid₁, h₁, h⟩ := Parser.bind_eq_done.mp h
  obtain ⟨first, mid₂, h₂, h⟩ := Parser.bind_eq_done.mp h
  obtain ⟨others, mid₃, h₃, h⟩ := Parser.bind_eq_done.mp h
  cases h
  exact .append (.token h₁) (.append ((Atom.sound fuel _ _ _ h₂).under (by decide))
    (headerAtoms_sound fuel _ _ _ h₃))

namespace Header

theorem sound_structured (fuel : Nat) (head : Head) {ts mid rest : List Token} {h : Header}
    {block : Forest} {last : List Token} (front : head.forest.Spans ts mid)
    (read : parseStructured fuel head mid = .done h last) (back : block.Spans last rest) :
    (h.forest block).Spans ts rest := by
  obtain ⟨keyword, mid₁, h₁, read⟩ := Parser.bind_eq_done.mp read
  obtain ⟨name, mid₂, h₂, read⟩ := Parser.bind_eq_done.mp read
  obtain ⟨generics, mid₃, h₃, read⟩ := Parser.bind_eq_done.mp read
  obtain ⟨inheritance, mid₄, h₄, read⟩ := Parser.bind_eq_done.mp read
  obtain ⟨requirements, mid₅, h₅, read⟩ := Parser.bind_eq_done.mp read
  cases read
  have parameters := ((GenericClause.sound fuel).under (r := .genericParams)
    (by decide)).optional _ _ _ h₃
  have supertypes := ((Inheritance.sound fuel).under (r := .inheritance)
    (by decide)).optional _ _ _ h₄
  have clause := ((WhereClause.sound fuel).under (r := .whereClause)
    (by decide)).optional _ _ _ h₅
  exact front.append (.append (.word h₁) (.append (.token h₂)
    (parameters.append (supertypes.append (clause.append back)))))

theorem sound_loose (fuel : Nat) (head : Head) {ts mid rest : List Token} {h : Header}
    {block : Forest} {last : List Token} (front : head.forest.Spans ts mid)
    (read : parseLoose fuel head mid = .done h last) (back : block.Spans last rest) :
    (h.forest block).Spans ts rest := by
  obtain ⟨keyword, mid₁, h₁, read⟩ := Parser.bind_eq_done.mp read
  obtain ⟨name, mid₂, h₂, read⟩ := Parser.bind_eq_done.mp read
  obtain ⟨atoms, mid₃, h₃, read⟩ := Parser.bind_eq_done.mp read
  cases read
  exact front.append (.append (.word h₁) (.append (.token h₂)
    ((headerAtoms_sound fuel _ _ _ h₃).append back)))

end Header

/-! ## Properties -/

namespace PatternTree

theorem sound (fuel : Nat) (p : PatternPart) : Sound forest (parse fuel p) := by
  induction fuel generalizing p with
  | zero => intro ts t rest h; cases h
  | succ fuel ih =>
    intro ts t rest h
    cases p with
    | whole =>
      simp only [parse, Parser.peek_bind] at h
      split at h
      · obtain ⟨opening, mid₁, h₁, h⟩ := Parser.bind_eq_done.mp h
        obtain ⟨elements, mid₂, h₂, h⟩ := Parser.bind_eq_done.mp h
        obtain ⟨closing, mid₃, h₃, h⟩ := Parser.bind_eq_done.mp h
        cases h
        exact .append (.token h₁) (.append (ih _ _ _ _ h₂) (.token h₃))
      · obtain ⟨word, read, rfl⟩ := Parser.map_eq_done.mp h
        exact .under (.word read) (by decide)
    | elements =>
      simp only [parse, Parser.peek_bind] at h
      split at h
      · cases h
        exact .nil
      · obtain ⟨first, mid₁, h₁, h⟩ := Parser.bind_eq_done.mp h
        obtain ⟨others, mid₂, h₂, h⟩ := Parser.bind_eq_done.mp h
        cases h
        exact .append ((ih _ _ _ _ h₁).under (by decide)) (ih _ _ _ _ h₂)
    | more =>
      simp only [parse, Parser.peek_bind] at h
      split at h
      · obtain ⟨comma, mid₁, h₁, h⟩ := Parser.bind_eq_done.mp h
        obtain ⟨pattern, mid₂, h₂, h⟩ := Parser.bind_eq_done.mp h
        obtain ⟨others, mid₃, h₃, h⟩ := Parser.bind_eq_done.mp h
        cases h
        exact .append (.append (.token h₁) ((ih _ _ _ _ h₂).under (by decide)))
          (ih _ _ _ _ h₃)
      · cases h
        exact .nil

end PatternTree

theorem Binding.sound (fuel : Nat) : Sound Binding.forest (Binding.parse fuel) := by
  intro ts b rest h
  obtain ⟨pattern, mid₁, h₁, h⟩ := Parser.bind_eq_done.mp h
  obtain ⟨clause, mid₂, h₂, h⟩ := Parser.bind_eq_done.mp h
  rw [Parser.peek_bind] at h
  have name := (PatternTree.sound fuel _ _ _ _ h₁).under (r := .bindingPattern) (by decide)
  have type := ((TypeClause.sound fuel).under (r := .typeClause) (by decide)).optional _ _ _ h₂
  split at h
  · obtain ⟨accessors, h₃, rfl⟩ := Parser.map_eq_done.mp h
    exact name.append (type.append ((Group.sound .brace fuel _ _ _ h₃).under (by decide)))
  · obtain ⟨initializer, mid₃, h₃, h⟩ := Parser.bind_eq_done.mp h
    obtain ⟨observers, mid₄, h₄, h⟩ := Parser.bind_eq_done.mp h
    cases h
    have value := Initializer.sound? fuel (r := .initializer) (by decide) _ _ _ h₃
    have block := ((Group.sound .observer fuel).under (r := .observerBlock)
      (by decide)).optional _ _ _ h₄
    exact name.append (type.append (value.append block))

theorem Property.sound (fuel : Nat) (head : Head) :
    SoundBehind head.forest Property.forest (Property.parse fuel head) := by
  intro ts mid p rest front h
  obtain ⟨classWord, mid₁, h₁, h⟩ := Parser.bind_eq_done.mp h
  obtain ⟨binder, mid₂, h₂, h⟩ := Parser.bind_eq_done.mp h
  obtain ⟨bindings, mid₃, h₃, h⟩ := Parser.bind_eq_done.mp h
  cases h
  have word := Sound.word.optional _ _ _ h₁
  have inner := ((Binding.sound fuel).under (r := .patternBinding) (by decide)).listed fuel
  exact front.append (word.append (.append (.under (.word h₂) (by decide)) (inner _ _ _ h₃)))

/-! ## Cases -/

theorem SlotSyntax.sound (fuel : Nat) : Sound SlotSyntax.forest (SlotSyntax.parse fuel) := by
  intro ts s rest h
  have value := Initializer.sound? fuel (r := .payloadDefault) (by decide)
  simp only [parse, Parser.peek_bind, Parser.peekSecond_bind] at h
  split at h
  · obtain ⟨label, mid₁, h₁, h⟩ := Parser.bind_eq_done.mp h
    obtain ⟨colon, mid₂, h₂, h⟩ := Parser.bind_eq_done.mp h
    obtain ⟨type, mid₃, h₃, h⟩ := Parser.bind_eq_done.mp h
    obtain ⟨default, mid₄, h₄, h⟩ := Parser.bind_eq_done.mp h
    cases h
    exact .append (.under (.word h₁) (by decide)) (.append (.token h₂)
      (.append ((TypeTree.sound fuel _ _ _ _ h₃).under (by decide)) (value _ _ _ h₄)))
  · obtain ⟨type, mid₁, h₁, h⟩ := Parser.bind_eq_done.mp h
    obtain ⟨default, mid₂, h₂, h⟩ := Parser.bind_eq_done.mp h
    cases h
    exact .append ((TypeTree.sound fuel _ _ _ _ h₁).under (by decide)) (value _ _ _ h₂)

theorem PayloadSyntax.sound (fuel : Nat) :
    Sound PayloadSyntax.forest (PayloadSyntax.parse fuel) := by
  intro ts p rest h
  obtain ⟨opening, mid₁, h₁, h⟩ := Parser.bind_eq_done.mp h
  obtain ⟨slots, mid₂, h₂, h⟩ := Parser.bind_eq_done.mp h
  obtain ⟨closing, mid₃, h₃, h⟩ := Parser.bind_eq_done.mp h
  cases h
  have inner := ((SlotSyntax.sound fuel).under (r := .payloadElem) (by decide)).listed fuel
  exact .append (.token h₁) (.append (inner.optional _ _ _ h₂) (.token h₃))

theorem CaseSyntax.sound (fuel : Nat) : Sound CaseSyntax.forest (CaseSyntax.parse fuel) := by
  intro ts c rest h
  obtain ⟨name, mid₁, h₁, h⟩ := Parser.bind_eq_done.mp h
  obtain ⟨payload, mid₂, h₂, h⟩ := Parser.bind_eq_done.mp h
  obtain ⟨raw, mid₃, h₃, h⟩ := Parser.bind_eq_done.mp h
  cases h
  have slots := (PayloadSyntax.sound fuel).under (r := .casePayload) (by decide)
  have value := Initializer.sound? fuel (r := .rawValue) (by decide)
  exact .append (.under (.word h₁) (by decide))
    (.append (slots.optional _ _ _ h₂) (value _ _ _ h₃))

theorem CaseGroup.sound (fuel : Nat) (head : Head) :
    SoundBehind head.forest CaseGroup.forest (CaseGroup.parse fuel head) := by
  intro ts mid c rest front h
  obtain ⟨keyword, mid₁, h₁, h⟩ := Parser.bind_eq_done.mp h
  obtain ⟨cases, mid₂, h₂, h⟩ := Parser.bind_eq_done.mp h
  cases h
  have inner := ((CaseSyntax.sound fuel).under (r := .enumCase) (by decide)).listed fuel
  exact front.append (.append (.token h₁) (inner _ _ _ h₂))

/-! ## Leaves -/

theorem spans_functionName {name : Word Kind.isFunctionName} {ts rest : List Token}
    (read : Parser.word Kind.isFunctionName ts = .done name rest) :
    (functionNameForest name).Spans ts rest := by
  unfold functionNameForest
  split
  · exact .under (.word read) (by decide)
  · exact .word read

namespace Leaf

theorem sound_body (fuel : Nat) : Sound bodyForest (parseBody? fuel) :=
  ((Group.sound .brace fuel).under (by decide)).optional

theorem sound_function (fuel : Nat) (head : Head) :
    SoundBehind head.forest forest (parseFunction fuel head) := by
  intro ts mid l rest front h
  obtain ⟨classWord, mid₁, h₁, h⟩ := Parser.bind_eq_done.mp h
  obtain ⟨keyword, mid₂, h₂, h⟩ := Parser.bind_eq_done.mp h
  obtain ⟨name, mid₃, h₃, h⟩ := Parser.bind_eq_done.mp h
  obtain ⟨signature, mid₄, h₄, h⟩ := Parser.bind_eq_done.mp h
  obtain ⟨body, mid₅, h₅, h⟩ := Parser.bind_eq_done.mp h
  cases h
  have word := Sound.word.optional _ _ _ h₁
  exact front.append (word.append (.append (.token h₂)
    (.append ((spans_functionName h₃).under (by decide))
      (.append (Signature.sound fuel _ _ _ h₄) (sound_body fuel _ _ _ h₅)))))

theorem sound_constructor (fuel : Nat) (head : Head) :
    SoundBehind head.forest forest (parseConstructor fuel head) := by
  intro ts mid l rest front h
  obtain ⟨keyword, mid₁, h₁, h⟩ := Parser.bind_eq_done.mp h
  obtain ⟨signature, mid₂, h₂, h⟩ := Parser.bind_eq_done.mp h
  obtain ⟨body, mid₃, h₃, h⟩ := Parser.bind_eq_done.mp h
  cases h
  exact front.append (.append (.token h₁)
    (.append (Signature.sound fuel _ _ _ h₂) (sound_body fuel _ _ _ h₃)))

theorem sound_destructor (fuel : Nat) (head : Head) :
    SoundBehind head.forest forest (parseDestructor fuel head) := by
  intro ts mid l rest front h
  obtain ⟨keyword, mid₁, h₁, h⟩ := Parser.bind_eq_done.mp h
  obtain ⟨body, mid₂, h₂, h⟩ := Parser.bind_eq_done.mp h
  cases h
  exact front.append (.append (.token h₁) (sound_body fuel _ _ _ h₂))

theorem sound_subscript (fuel : Nat) (head : Head) :
    SoundBehind head.forest forest (parseSubscript fuel head) := by
  intro ts mid l rest front h
  obtain ⟨keyword, mid₁, h₁, h⟩ := Parser.bind_eq_done.mp h
  obtain ⟨signature, mid₂, h₂, h⟩ := Parser.bind_eq_done.mp h
  obtain ⟨body, mid₃, h₃, h⟩ := Parser.bind_eq_done.mp h
  cases h
  exact front.append (.append (.token h₁)
    (.append (Signature.sound fuel _ _ _ h₂) (sound_body fuel _ _ _ h₃)))

theorem sound_alias (fuel : Nat) (head : Head) :
    SoundBehind head.forest forest (parseAlias fuel head) := by
  intro ts mid l rest front h
  obtain ⟨keyword, mid₁, h₁, h⟩ := Parser.bind_eq_done.mp h
  obtain ⟨name, mid₂, h₂, h⟩ := Parser.bind_eq_done.mp h
  obtain ⟨signature, mid₃, h₃, h⟩ := Parser.bind_eq_done.mp h
  cases h
  exact front.append (.append (.word h₁) (.append (.token h₂)
    (Signature.sound fuel _ _ _ h₃)))

theorem sound_path (fuel : Nat) :
    Sound pathForest (Parser.many (· == .dot) (do
      let dot ← Parser.token .dot
      let word ← Parser.word Kind.isIdentifier
      pure (dot, word)) fuel) := by
  refine Sound.many (fun ts step rest h => ?_) fuel
  obtain ⟨dot, mid, h₁, h⟩ := Parser.bind_eq_done.mp h
  obtain ⟨word, last, h₂, h⟩ := Parser.bind_eq_done.mp h
  cases h
  exact .append (.token h₁) (.under (.word h₂) (by decide))

theorem sound_import (fuel : Nat) (head : Head) :
    SoundBehind head.forest forest (parseImport fuel head) := by
  intro ts mid l rest front h
  obtain ⟨keyword, mid₁, h₁, h⟩ := Parser.bind_eq_done.mp h
  obtain ⟨what, mid₂, h₂, h⟩ := Parser.bind_eq_done.mp h
  obtain ⟨name, mid₃, h₃, h⟩ := Parser.bind_eq_done.mp h
  obtain ⟨path, mid₄, h₄, h⟩ := Parser.bind_eq_done.mp h
  cases h
  have word := (Sound.word.under (r := .importKind) (by decide)).optional _ _ _ h₂
  exact front.append (.append (.token h₁) (word.append (.append (.token h₃)
    (sound_path fuel _ _ _ h₄))))

/-- The parsers of leaves. -/
theorem form_leaf {first second : Option Kind} {parse : Nat → Head → Parser Leaf}
    (form : Form.of first second = .leaf parse) :
    (parse = fun n h => Leaf.property <$> Property.parse n h) ∨
      (parse = fun n h => Leaf.cases <$> CaseGroup.parse n h) ∨ parse = parseFunction ∨
      parse = parseConstructor ∨ parse = parseDestructor ∨ parse = parseSubscript ∨
      parse = parseAlias ∨ parse = parseImport := by
  unfold Form.of at form
  split at form
  case h_6 => split at form <;> cases form <;> simp
  all_goals cases form
  all_goals simp

theorem sound_form {first second : Option Kind} {parse : Nat → Head → Parser Leaf}
    (form : Form.of first second = .leaf parse) (fuel : Nat) (head : Head) :
    SoundBehind head.forest forest (parse fuel head) := by
  rcases form_leaf form with rfl | rfl | rfl | rfl | rfl | rfl | rfl | rfl
  · intro ts mid l rest front h
    obtain ⟨p, read, rfl⟩ := Parser.map_eq_done.mp h
    exact Property.sound fuel head _ _ _ _ front read
  · intro ts mid l rest front h
    obtain ⟨c, read, rfl⟩ := Parser.map_eq_done.mp h
    exact CaseGroup.sound fuel head _ _ _ _ front read
  · exact sound_function fuel head
  · exact sound_constructor fuel head
  · exact sound_destructor fuel head
  · exact sound_subscript fuel head
  · exact sound_alias fuel head
  · exact sound_import fuel head

end Leaf

/-! ## Rows -/

namespace Items

/-- A type declaration and the row behind it, from behind its header. -/
theorem sound_nominal {fuel : Nat} (ih : Sound forest (parse fuel)) {header : Header}
    {ts mid rest : List Token} {i : Items}
    (front : ∀ {block : Forest} {behind : List Token}, block.Spans mid behind →
      (header.forest block).Spans ts behind)
    (read : parseNominal (parse fuel) header mid = .done i rest) :
    i.forest.Spans ts rest := by
  obtain ⟨opening, mid₁, h₁, read⟩ := Parser.bind_eq_done.mp read
  obtain ⟨members, mid₂, h₂, read⟩ := Parser.bind_eq_done.mp read
  obtain ⟨closing, mid₃, h₃, read⟩ := Parser.bind_eq_done.mp read
  obtain ⟨others, mid₄, h₄, read⟩ := Parser.bind_eq_done.mp read
  cases read
  have block := Forest.Spans.append (.token h₁) (.append (ih _ _ _ h₂) (.token h₃))
  have decl := (front (block.under (r := .memberBlock) (by decide))).under
    (nominalRule_ne_exprAtom header.keyword.kind)
  exact .node (decl.under (by decide)) (ih _ _ _ h₄) (by decide)

theorem sound_declaration {fuel : Nat} (ih : Sound forest (parse fuel)) :
    Sound forest (parseDeclaration (parse fuel) fuel) := by
  intro ts i rest read
  obtain ⟨head, mid, h₁, read⟩ := Parser.bind_eq_done.mp read
  have front := Head.sound fuel _ _ _ h₁
  simp only [Parser.peek_bind, Parser.peekSecond_bind] at read
  cases form : Form.of (mid.head?.map Token.kind) (mid.tail.head?.map Token.kind) with
  | structured =>
    simp only [form] at read
    obtain ⟨header, last, h₂, read⟩ := Parser.bind_eq_done.mp read
    exact sound_nominal ih (Header.sound_structured fuel head front h₂) read
  | loose =>
    simp only [form] at read
    obtain ⟨header, last, h₂, read⟩ := Parser.bind_eq_done.mp read
    exact sound_nominal ih (Header.sound_loose fuel head front h₂) read
  | leaf parse =>
    simp only [form] at read
    obtain ⟨l, last, h₂, read⟩ := Parser.bind_eq_done.mp read
    obtain ⟨others, last, h₃, read⟩ := Parser.bind_eq_done.mp read
    cases read
    have below := (Leaf.sound_form form fuel head _ _ _ _ front h₂).under l.rule_ne_exprAtom
    exact .node (below.under (by decide)) (ih _ _ _ h₃) (by decide)
  | impossible =>
    simp only [form] at read
    cases read

theorem sound_other {fuel : Nat} (ih : Sound forest (parse fuel)) (k : Kind) :
    Sound forest (if startsDeclaration k then parseDeclaration (parse fuel) fuel else pure nil) := by
  intro ts i rest read
  split at read
  · exact sound_declaration ih _ _ _ read
  · cases read
    exact .nil

theorem sound (fuel : Nat) : Sound forest (parse fuel) := by
  induction fuel with
  | zero => intro ts i rest h; cases h
  | succ fuel ih =>
    intro ts i rest h
    simp only [parse, Parser.peek_bind] at h
    cases front : ts.head?.map Token.kind with
    | none =>
      simp only [front] at h
      cases h
      exact .nil
    | some k =>
      simp only [front] at h
      cases k with
      | semicolon =>
        obtain ⟨mark, mid, h₁, h⟩ := Parser.bind_eq_done.mp h
        obtain ⟨others, last, h₂, h⟩ := Parser.bind_eq_done.mp h
        cases h
        exact .node (.token h₁) (ih _ _ _ h₂) (by decide)
      | directive =>
        obtain ⟨line, mid, h₁, h⟩ := Parser.bind_eq_done.mp h
        obtain ⟨others, last, h₂, h⟩ := Parser.bind_eq_done.mp h
        cases h
        have below := (Forest.Spans.token h₁).under (r := .compilerControl) (by decide)
        exact .node (below.under (by decide)) (ih _ _ _ h₂) (by decide)
      | _ => exact sound_other ih _ _ _ _ h

end Items

/-- The tree of what is read is a derivation of the tokens. -/
theorem isDerivation_of_parse {ts : List Token} {i : Items} (h : parse ts = .done i []) :
    IsDerivation i.derivation ts := by
  unfold parse at h
  split at h
  next items read =>
    cases h
    have spans := (Items.sound _ _ _ _ read).under (r := .start) (by decide)
    exact ⟨i.derives_derivation, by simpa [Items.derivation] using spans.eq.symm, spans.settled⟩
  next => cases h
  next => cases h

end Conformance.Grammar
