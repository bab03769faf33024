import Conformance.Proofs.Grammar.ItemDerivation
import Conformance.Proofs.Model.Lines

/-!
# Syntax in another place

A move takes tokens to another place of a source, or to another source.  Each token keeps
its kind and its text.  So a phrase can be moved by its tokens, and its tree moves with it
(`Items.forest_move`).  What settles a tree are kinds of tokens, and so a settled tree stays
settled (`Forest.Settled.move`).
-/

namespace Conformance.Grammar

/-- A move of tokens, perhaps behind other layout. -/
structure Move where
  /-- Where a token is moved. -/
  token : Token → Token
  /-- A token keeps its kind. -/
  kind_token : ∀ t, (token t).kind = t.kind
  /-- A token keeps its text. -/
  text_token : ∀ t, (token t).text = t.text

attribute [simp] Move.kind_token Move.text_token

variable (v : Move)

/-! ## Trees -/

namespace Forest

/-- A row of trees with its tokens moved. -/
def move : Forest → Forest
  | nil => nil
  | leaf t rest => leaf (v.token t) rest.move
  | node r below rest => node r below.move rest.move

@[simp] theorem move_nil : nil.move v = nil := rfl

@[simp] theorem move_ofToken (t : Token) : (ofToken t).move v = ofToken (v.token t) := rfl

@[simp] theorem move_under (r : Rule) (f : Forest) :
    (under r f).move v = under r (f.move v) := rfl

@[simp] theorem move_append (f g : Forest) : (f ++ g).move v = f.move v ++ g.move v := by
  induction f with
  | nil => rfl
  | leaf t rest ih => simp [move, ih]
  | node r below rest _ ih => simp [move, ih]

@[simp] theorem move_concat (fs : List Forest) :
    (concat fs).move v = concat (fs.map (move v)) := by
  induction fs with
  | nil => rfl
  | cons f fs ih => simp [ih]

@[simp] theorem tokens_move (f : Forest) : (f.move v).tokens = f.tokens.map v.token := by
  induction f with
  | nil => rfl
  | leaf t rest ih => simp [move, ih]
  | node r below rest ihBelow ihRest => simp [move, ihBelow, ihRest]

theorem isBareDot_of_move {r : Rule} {f : Forest} (h : IsBareDot r (f.move v)) :
    IsBareDot r f := by
  obtain ⟨rule, t, dot, eq⟩ := h
  cases f with
  | nil => cases eq
  | node => cases eq
  | leaf u rest =>
    cases rest with
    | leaf => cases eq
    | node => cases eq
    | nil =>
      cases eq
      exact ⟨rule, u, (v.kind_token u).symm.trans dot, rfl⟩

/-- Settled trees stay settled. -/
theorem Settled.move {f : Forest} {behind : List Token} (settled : f.Settled behind) :
    (f.move v).Settled (behind.map v.token) := by
  induction f generalizing behind with
  | nil => trivial
  | leaf t rest ih => exact ih settled
  | node r below rest ihBelow ihRest =>
    obtain ⟨dot, settledBelow, settledRest⟩ := settled
    refine ⟨fun bare t head => ?_, ?_, ihRest settledRest⟩
    · rw [tokens_move, ← List.map_append, List.head?_map] at head
      obtain ⟨u, isHead, rfl⟩ := Option.map_eq_some_iff.mp head
      rw [v.kind_token]
      exact dot (isBareDot_of_move v bare) u isHead
    · rw [tokens_move, ← List.map_append]
      exact ihBelow settledBelow

end Forest

/-! ## Lists and options -/

/-- A word is moved. -/
def Word.move {p : Kind → Bool} (w : Word p) : Word p :=
  ⟨v.token w.val, (congrArg p (v.kind_token w.val)).trans w.property⟩

@[simp] theorem Word.val_move {p : Kind → Bool} (w : Word p) :
    (w.move v).val = v.token w.val := rfl

@[simp] theorem Word.text_move {p : Kind → Bool} (w : Word p) : (w.move v).text = w.text :=
  v.text_token w.val

section
variable {α : Type} {f : α → Forest} {step : α → α}

/-- Phrases between commas are moved with the commas. -/
def Listed.move (step : α → α) (l : Listed α) : Listed α :=
  ⟨step l.first, l.others.map fun (comma, a) => (comma.move v, step a)⟩

theorem forest_move_option (each : ∀ a, f (step a) = (f a).move v) (o : Option α) :
    optionForest f (o.map step) = (optionForest f o).move v := by
  cases o with
  | none => rfl
  | some a => exact each a

/-- The same below a rule. -/
theorem under_move_option {r : Rule} (each : ∀ a, f (step a) = (f a).move v) (o : Option α) :
    optionForest (fun a => .under r (f a)) (o.map step) =
      (optionForest (fun a => .under r (f a)) o).move v := by
  cases o with
  | none => rfl
  | some a => exact congrArg (Forest.under r) (each a)

theorem forest_move_concat (each : ∀ a, f (step a) = (f a).move v) (as : List α) :
    Forest.concat ((as.map step).map f) = (Forest.concat (as.map f)).move v := by
  simp only [Forest.move_concat, List.map_map]
  congr 1
  exact List.map_congr_left fun a _ => each a

theorem Listed.under_move {r : Rule} (each : ∀ a, f (step a) = (f a).move v) (l : Listed α) :
    (l.move v step).forest (fun a => .under r (f a)) =
      (l.forest fun a => .under r (f a)).move v := by
  simp [Listed.move, Listed.forest, each, Function.comp_def]

theorem word_move_option {p : Kind → Bool} (o : Option (Word p)) :
    optionForest (fun w : Word p => .ofToken w.val) (o.map (Word.move v)) =
      (optionForest (fun w : Word p => .ofToken w.val) o).move v := by
  cases o <;> rfl

end

/-! ## Groups and atoms -/

/-- A balanced run is moved. -/
def Run.move : Run → Run
  | nil => nil
  | word t rest => word (t.move v) rest.move
  | group b opening body closing rest =>
    group b (opening.move v) body.move (closing.move v) rest.move

/-- A group is moved. -/
def Group.move {b : Bracket} (g : Group b) : Group b :=
  ⟨g.opening.move v, g.body.move v, g.closing.move v⟩

/-- An atom is moved. -/
def Atom.move {words : Kind → Bool} {brackets : Bracket → Bool} :
    Atom words brackets → Atom words brackets
  | word t => word (t.move v)
  | group b admitted g => group b admitted (g.move v)

/-- An atom of an expression is moved. -/
def ExpressionAtom.move : ExpressionAtom → ExpressionAtom
  | plain a => plain (a.move v)
  | member dot name => member (dot.move v) (name.move v)

/-- An expression is moved. -/
def Expression.move (e : Expression) : Expression :=
  ⟨e.first.move v, e.others.map (ExpressionAtom.move v)⟩

/-- An initializer is moved. -/
def Initializer.move (i : Initializer) : Initializer := ⟨i.equal.move v, i.value.move v⟩

@[simp] theorem Run.forest_move (r : Run) : (r.move v).forest = r.forest.move v := by
  induction r with
  | nil => rfl
  | word t rest ih => simp [Run.move, Run.forest, Forest.move, ih]
  | group b opening body closing rest ihBody ihRest =>
    simp [Run.move, Run.forest, Forest.move, ihBody, ihRest]

@[simp] theorem Group.forest_move {b : Bracket} (g : Group b) :
    (g.move v).forest = g.forest.move v := by
  simp [Group.move, Group.forest]

@[simp] theorem Atom.forest_move {words : Kind → Bool} {brackets : Bracket → Bool}
    (a : Atom words brackets) : (a.move v).forest = a.forest.move v := by
  cases a <;> simp [Atom.move, Atom.forest]

@[simp] theorem ExpressionAtom.forest_move (a : ExpressionAtom) :
    (a.move v).forest = a.forest.move v := by
  cases a <;> simp [ExpressionAtom.move, ExpressionAtom.forest]

@[simp] theorem Expression.forest_move (e : Expression) :
    (e.move v).forest = e.forest.move v := by
  simp [Expression.move, Expression.forest, Function.comp_def]

@[simp] theorem Initializer.forest_move (i : Initializer) :
    (i.move v).forest = i.forest.move v := by
  simp [Initializer.move, Initializer.forest]

theorem headerForest_move (atoms : List HeaderAtom) :
    headerForest (atoms.map (Atom.move v)) = (headerForest atoms).move v :=
  forest_move_concat v (fun a => by simp) atoms

theorem Signature.forest_move (s : Signature) :
    Signature.forest (s.map (Atom.move v)) = (Signature.forest s).move v :=
  forest_move_concat v (fun a => by simp) s

/-! ## Types -/

/-- A part of a type is moved. -/
def TypeTree.move : {p : TypePart} → TypeTree p → TypeTree p
  | _, attributed sign name type => attributed (sign.move v) (name.move v) type.move
  | _, composed unit more => composed unit.move more.move
  | _, function unit effects arrow result =>
    function unit.move (effects.map (Word.move v)) (arrow.move v) result.move
  | _, noConjunct => noConjunct
  | _, conjunct sign unit more => conjunct (sign.move v) unit.move more.move
  | _, marked primary marks => marked primary.move (marks.map (Word.move v))
  | _, named first path => named first.move path.move
  | _, array opening element closing => array (opening.move v) element.move (closing.move v)
  | _, dictionary opening key colon value closing =>
    dictionary (opening.move v) key.move (colon.move v) value.move (closing.move v)
  | _, tuple opening elements closing => tuple (opening.move v) elements.move (closing.move v)
  | _, prefixed word primary => prefixed (word.move v) primary.move
  | _, pathEnd => pathEnd
  | _, member dot identifier path => member (dot.move v) identifier.move path.move
  | _, plain name => plain (name.move v)
  | _, generic name opening first others closing =>
    generic (name.move v) (opening.move v) first.move others.move (closing.move v)
  | _, noArgument => noArgument
  | _, argument comma type others => argument (comma.move v) type.move others.move
  | _, noElement => noElement
  | _, someElements first others => someElements first.move others.move
  | _, unlabelled type => unlabelled type.move
  | _, labelled label colon type => labelled (label.move v) (colon.move v) type.move
  | _, relabelled outer inner colon type =>
    relabelled (outer.move v) (inner.move v) (colon.move v) type.move
  | _, lastElement => lastElement
  | _, moreElements comma element others =>
    moreElements (comma.move v) element.move others.move

/-- A type behind a colon is moved. -/
def TypeClause.move (c : TypeClause) : TypeClause := ⟨c.colon.move v, c.type.move v⟩

@[simp] theorem TypeTree.forest_move {p : TypePart} (t : TypeTree p) :
    (t.move v).forest = t.forest.move v := by
  induction t with
  | function unit effects arrow result ihUnit ihResult =>
    simp [TypeTree.move, forest, effectsForest, Function.comp_def, ihUnit, ihResult]
  | marked primary marks ih =>
    simp [TypeTree.move, forest, marksForest, Function.comp_def, ih]
  | _ => simp_all [TypeTree.move, forest, Forest.move]

@[simp] theorem TypeClause.forest_move (c : TypeClause) :
    (c.move v).forest = c.forest.move v := by
  simp [TypeClause.move, TypeClause.forest]

/-! ## Heads and headers -/

/-- An attribute is moved. -/
def Attribute.move (a : Attribute) : Attribute :=
  ⟨a.sign.move v, a.name.move v, a.arguments.map (Group.move v)⟩

/-- A modifier is moved. -/
def Modifier.move : Modifier → Modifier
  | plain word => plain (word.move v)
  | detailed word opening detail closing =>
    detailed (word.move v) (opening.move v) (detail.move v) (closing.move v)

/-- A head is moved. -/
def Head.move (h : Head) : Head :=
  ⟨h.attributes.map (Attribute.move v), h.modifiers.map (Modifier.move v)⟩

/-- A generic parameter is moved. -/
def GenericParameter.move (p : GenericParameter) : GenericParameter :=
  ⟨p.name.move v, p.constraint.map (TypeClause.move v)⟩

/-- Generic parameters are moved. -/
def GenericClause.move (c : GenericClause) : GenericClause :=
  ⟨c.opening.move v, c.parameters.move v (GenericParameter.move v), c.closing.move v⟩

/-- Supertypes are moved. -/
def Inheritance.move (i : Inheritance) : Inheritance :=
  ⟨i.colon.move v, i.types.move v (TypeTree.move v)⟩

/-- Requirements are moved. -/
def WhereClause.move (w : WhereClause) : WhereClause :=
  ⟨w.keyword.move v, w.first.move v, w.others.map (Atom.move v)⟩

/-- A header is moved. -/
def Header.move : Header → Header
  | structured head keyword name generics inheritance requirements =>
    structured (head.move v) (keyword.move v) (name.move v)
      (generics.map (GenericClause.move v)) (inheritance.map (Inheritance.move v))
      (requirements.map (WhereClause.move v))
  | loose head keyword name atoms =>
    loose (head.move v) (keyword.move v) (name.move v) (atoms.map (Atom.move v))

@[simp] theorem Attribute.forest_move (a : Attribute) : (a.move v).forest = a.forest.move v := by
  simp [Attribute.move, Attribute.forest, under_move_option v]

@[simp] theorem Modifier.forest_move (m : Modifier) : (m.move v).forest = m.forest.move v := by
  cases m <;> simp [Modifier.move, Modifier.forest]

@[simp] theorem Head.forest_move (h : Head) : (h.move v).forest = h.forest.move v := by
  simp [Head.move, Head.forest, Function.comp_def]

@[simp] theorem GenericParameter.forest_move (p : GenericParameter) :
    (p.move v).forest = p.forest.move v := by
  simp [GenericParameter.move, GenericParameter.forest, forest_move_option v]

@[simp] theorem GenericClause.forest_move (c : GenericClause) :
    (c.move v).forest = c.forest.move v := by
  simp [GenericClause.move, GenericClause.forest, Listed.under_move v]

@[simp] theorem Inheritance.forest_move (i : Inheritance) :
    (i.move v).forest = i.forest.move v := by
  simp [Inheritance.move, Inheritance.forest, Listed.under_move v]

@[simp] theorem WhereClause.forest_move (w : WhereClause) :
    (w.move v).forest = w.forest.move v := by
  simp [WhereClause.move, WhereClause.forest, headerForest_move]

@[simp] theorem Header.forest_move (h : Header) (block : Forest) :
    (h.move v).forest (block.move v) = (h.forest block).move v := by
  cases h with
  | structured head keyword name generics inheritance requirements =>
    simp [Header.move, Header.forest, under_move_option v]
  | loose head keyword name atoms =>
    simp [Header.move, Header.forest, headerForest_move]

/-! ## Properties and cases -/

/-- A part of a pattern is moved. -/
def PatternTree.move : {p : PatternPart} → PatternTree p → PatternTree p
  | _, name word => name (word.move v)
  | _, tuple opening elements closing => tuple (opening.move v) elements.move (closing.move v)
  | _, none => none
  | _, some first others => some first.move others.move
  | _, last => last
  | _, more comma pattern others => more (comma.move v) pattern.move others.move

/-- A binding is moved. -/
def Binding.move : Binding → Binding
  | plain pattern clause initializer observers =>
    plain (pattern.move v) (clause.map (TypeClause.move v)) (initializer.map (Initializer.move v))
      (observers.map (Group.move v))
  | computed pattern clause accessors =>
    computed (pattern.move v) (clause.map (TypeClause.move v)) (accessors.move v)

/-- A property is moved. -/
def Property.move (p : Property) : Property :=
  ⟨p.head.move v, p.classWord.map (Word.move v), p.binder.move v,
    p.bindings.move v (Binding.move v)⟩

/-- A slot is moved. -/
def SlotSyntax.move : SlotSyntax → SlotSyntax
  | labelled label colon type default =>
    labelled (label.move v) (colon.move v) (type.move v) (default.map (Initializer.move v))
  | positional type default => positional (type.move v) (default.map (Initializer.move v))

/-- A payload is moved. -/
def PayloadSyntax.move (p : PayloadSyntax) : PayloadSyntax :=
  ⟨p.opening.move v, p.slots.map (Listed.move v (SlotSyntax.move v)), p.closing.move v⟩

/-- A case is moved. -/
def CaseSyntax.move (c : CaseSyntax) : CaseSyntax :=
  ⟨c.name.move v, c.payload.map (PayloadSyntax.move v), c.raw.map (Initializer.move v)⟩

/-- A case declaration is moved. -/
def CaseGroup.move (c : CaseGroup) : CaseGroup :=
  ⟨c.head.move v, c.keyword.move v, c.cases.move v (CaseSyntax.move v)⟩

@[simp] theorem PatternTree.forest_move {p : PatternPart} (t : PatternTree p) :
    (t.move v).forest = t.forest.move v := by
  induction t with
  | _ => simp_all [PatternTree.move, forest]

@[simp] theorem Binding.forest_move (b : Binding) : (b.move v).forest = b.forest.move v := by
  cases b <;> simp [Binding.move, Binding.forest, under_move_option v]

@[simp] theorem Property.forest_move (p : Property) : (p.move v).forest = p.forest.move v := by
  simp [Property.move, Property.forest, word_move_option, Listed.under_move v]

@[simp] theorem SlotSyntax.forest_move (s : SlotSyntax) :
    (s.move v).forest = s.forest.move v := by
  cases s <;> simp [SlotSyntax.move, SlotSyntax.forest, under_move_option v]

@[simp] theorem PayloadSyntax.forest_move (p : PayloadSyntax) :
    (p.move v).forest = p.forest.move v := by
  have slots := forest_move_option v
    (Listed.under_move v (r := .payloadElem) (SlotSyntax.forest_move v))
  simp [PayloadSyntax.move, PayloadSyntax.forest, slots]

@[simp] theorem CaseSyntax.forest_move (c : CaseSyntax) : (c.move v).forest = c.forest.move v := by
  simp [CaseSyntax.move, CaseSyntax.forest, under_move_option v]

@[simp] theorem CaseGroup.forest_move (c : CaseGroup) : (c.move v).forest = c.forest.move v := by
  simp [CaseGroup.move, CaseGroup.forest, Listed.under_move v]

/-! ## Rows -/

/-- A leaf is moved. -/
def Leaf.move : Leaf → Leaf
  | directive line => directive (line.move v)
  | property p => property (p.move v)
  | cases c => cases (c.move v)
  | function head classWord keyword name signature body =>
    function (head.move v) (classWord.map (Word.move v)) (keyword.move v) (name.move v)
      (signature.map (Atom.move v)) (body.map (Group.move v))
  | constructor head keyword signature body =>
    constructor (head.move v) (keyword.move v) (signature.map (Atom.move v))
      (body.map (Group.move v))
  | destructor head keyword body =>
    destructor (head.move v) (keyword.move v) (body.map (Group.move v))
  | subscript head keyword signature body =>
    subscript (head.move v) (keyword.move v) (signature.map (Atom.move v))
      (body.map (Group.move v))
  | typeAlias head keyword name signature =>
    typeAlias (head.move v) (keyword.move v) (name.move v) (signature.map (Atom.move v))
  | importing head keyword what name path =>
    importing (head.move v) (keyword.move v) (what.map (Word.move v)) (name.move v)
      (path.map fun (dot, word) => (dot.move v, word.move v))

/-- A row is moved. -/
def Items.move : Items → Items
  | nil => nil
  | semicolon mark rest => semicolon (mark.move v) rest.move
  | leaf l rest => leaf (l.move v) rest.move
  | nominal header opening members closing rest =>
    nominal (header.move v) (opening.move v) members.move (closing.move v) rest.move

@[simp] theorem functionNameForest_move (name : Word Kind.isFunctionName) :
    functionNameForest (name.move v) = (functionNameForest name).move v := by
  unfold functionNameForest
  rw [Word.val_move, v.kind_token]
  split <;> rfl

@[simp] theorem Leaf.rule_move (l : Leaf) : (l.move v).rule = l.rule := by
  cases l <;> rfl

@[simp] theorem Leaf.forest_move (l : Leaf) : (l.move v).forest = l.forest.move v := by
  have body (o : Option (Group .brace)) : bodyForest (o.map (Group.move v)) = (bodyForest o).move v :=
    under_move_option v (Group.forest_move v) o
  have what (o : Option (Word Kind.isImportWord)) :
      optionForest (fun w : Word _ => .under .importKind (.ofToken w.val)) (o.map (Word.move v)) =
        (optionForest (fun w : Word _ => .under .importKind (.ofToken w.val)) o).move v := by
    cases o <;> rfl
  have path (p : List (Tok .dot × Word Kind.isIdentifier)) :
      pathForest (p.map fun (dot, word) => (dot.move v, word.move v)) = (pathForest p).move v :=
    forest_move_concat v (fun _ => by simp) p
  cases l <;>
    simp [Leaf.move, Leaf.forest, word_move_option, Signature.forest_move, body, what, path]

@[simp] theorem Header.keyword_move (h : Header) : (h.move v).keyword = v.token h.keyword := by
  cases h <;> rfl

@[simp] theorem Items.forest_move (i : Items) : (i.move v).forest = i.forest.move v := by
  induction i with
  | nil => rfl
  | semicolon mark rest ih => simp [Items.move, Items.forest, Forest.move, ih]
  | leaf l rest ih => simp [Items.move, Items.forest, Forest.move, ih]
  | nominal header opening members closing rest ihMembers ihRest =>
    simp [Items.move, Items.forest, Forest.move, ihMembers, ihRest, ← Header.forest_move]

/-- A row moves with its tokens. -/
theorem Items.tokens_move (i : Items) : (i.move v).tokens = i.tokens.map v.token := by
  rw [← Items.tokens_forest, forest_move, Forest.tokens_move, Items.tokens_forest]

end Conformance.Grammar
