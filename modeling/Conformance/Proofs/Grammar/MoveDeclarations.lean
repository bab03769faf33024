import Conformance.Declaration.OfSyntax
import Conformance.Proofs.Grammar.Move

/-!
# Declarations in another place

What a row declares are texts, kinds and places.  Where the row is moved, its declarations are
in other places and are the same otherwise (`Items.declarations_relocate`).  A move some lines
down takes them as many lines down (`Items.declarations_move`).

A text is a stretch of tokens with the layout between them, so the layout has to move along
with all tokens but the first of the row (`Move.Keeps`).  No stretch begins inside another, so
the layout in front of the first token never counts.
-/

namespace Conformance.Grammar

variable {v : Move}

/-! ## Places -/

/-- What is seen of the place a token is moved to depends on the place it is moved from. -/
def Move.Places (v : Move) (seen placed : Location → Location) : Prop :=
  ∀ t, seen (v.token t).start.location = placed t.start.location

/-- A move of tokens some lines further down. -/
structure LineMove extends Move where
  /-- The number of lines. -/
  lines : Nat
  /-- A token keeps its column. -/
  location_token : ∀ t, (token t).start.location = t.start.location.down lines

instance : Coe LineMove Move := ⟨LineMove.toMove⟩

variable {seen placed : Location → Location}

/-! ## Layout -/

/-- All tokens but the first keep their layout. -/
def Move.Keeps (v : Move) (ts : List Token) : Prop :=
  ∀ t ∈ ts.tail, (v.token t).layout = t.layout

namespace Move.Keeps

variable {t : Token} {ts us : List Token}

theorem behind (h : v.Keeps (t :: ts)) : v.Keeps ts := fun u mem => h u (List.mem_of_mem_tail mem)

theorem left (h : v.Keeps (ts ++ us)) : v.Keeps ts := by
  intro t mem
  cases ts with
  | nil => cases mem
  | cons u ts => exact h t (List.mem_append_left _ mem)

theorem right (h : v.Keeps (ts ++ us)) : v.Keeps us := by
  intro t mem
  cases ts with
  | nil => exact h t mem
  | cons u ts => exact h t (List.mem_append_right _ (List.mem_of_mem_tail mem))

theorem of_infix {α : Type} {yield : α → List Token} {as bs : List α}
    (h : v.Keeps (bs.flatMap yield)) (part : as <:+: bs) : v.Keeps (as.flatMap yield) := by
  obtain ⟨front, back, rfl⟩ := part
  rw [List.flatMap_append, List.flatMap_append] at h
  exact h.left.right

theorem of_mem {α : Type} {yield : α → List Token} {as : List α} {a : α}
    (h : v.Keeps (as.flatMap yield)) (mem : a ∈ as) : v.Keeps (yield a) := by
  obtain ⟨front, back, rfl⟩ := List.append_of_mem mem
  rw [List.flatMap_append, List.flatMap_cons] at h
  exact h.right.left

theorem of_mem_listed {α : Type} {yield : α → List Token} {l : Listed α} {a : α}
    (h : v.Keeps (l.tokens yield)) (mem : a ∈ l.toList) : v.Keeps (yield a) := by
  rcases List.mem_cons.mp mem with rfl | mem
  · exact h.left
  · obtain ⟨⟨comma, b⟩, other, rfl⟩ := List.mem_map.mp mem
    exact (h.right.of_mem other).behind

theorem of_option {α : Type} {yield : α → List Token} {o : Option α} {a : α}
    (h : v.Keeps (optionTokens yield o)) (is : o = some a) : v.Keeps (yield a) := by
  rwa [is] at h

/-- A stretch keeps its text. -/
theorem stretch (h : v.Keeps ts) : Token.stretch (ts.map v.token) = Token.stretch ts := by
  cases ts with
  | nil => rfl
  | cons t ts =>
    have same : (ts.map v.token).map (fun u => u.layout ++ u.text) =
        ts.map fun u => u.layout ++ u.text := by
      rw [List.map_map]
      refine List.map_congr_left fun u mem => ?_
      rw [Function.comp_apply, h u mem, v.text_token]
    rw [List.map_cons, Token.stretch, Token.stretch, same, v.text_token]

end Move.Keeps

@[simp] theorem Listed.toList_move {α : Type} (v : Move) (step : α → α) (l : Listed α) :
    (l.move v step).toList = l.toList.map step := by
  simp [Listed.move, Listed.toList, Function.comp_def]

/-! ## Texts -/

theorem Expression.tokens_move (e : Expression) : (e.move v).tokens = e.tokens.map v.token := by
  rw [← Expression.tokens_forest, forest_move, Forest.tokens_move, Expression.tokens_forest]

theorem TypeTree.tokens_move {p : TypePart} (t : TypeTree p) :
    (t.move v).tokens = t.tokens.map v.token := by
  rw [← TypeTree.tokens_forest, forest_move, Forest.tokens_move, TypeTree.tokens_forest]

theorem Expression.text_move {e : Expression} (h : v.Keeps e.tokens) :
    (e.move v).text = e.text := by
  rw [Expression.text, Expression.tokens_move, h.stretch]
  rfl

theorem TypeSyntax.text_move {t : TypeSyntax} (h : v.Keeps t.tokens) :
    TypeSyntax.text (t.move v) = TypeSyntax.text t := by
  rw [TypeSyntax.text, TypeTree.tokens_move, h.stretch]
  rfl

theorem Attribute.text_move {a : Attribute} (h : v.Keeps a.tokens) :
    (a.move v).text = a.text := by
  rw [Attribute.text, ← Attribute.tokens_forest, forest_move, Forest.tokens_move,
    Attribute.tokens_forest, h.stretch]
  rfl

theorem Modifier.text_move (m : Modifier) : (m.move v).text = m.text := by
  cases m <;> simp [Modifier.move, Modifier.text]

/-- The value of an initializer that may be missing. -/
theorem Initializer.value_move {o : Option Initializer}
    (h : v.Keeps (optionTokens Initializer.tokens o)) :
    (o.map (Initializer.move v)).map (·.value.text) = o.map (·.value.text) := by
  cases o with
  | none => rfl
  | some i => exact congrArg some (Expression.text_move (e := i.value) h.behind)

/-- The type of a clause that may be missing. -/
theorem TypeClause.type_move {o : Option TypeClause}
    (h : v.Keeps (optionTokens TypeClause.tokens o)) :
    (o.map (TypeClause.move v)).map (·.type.text) = o.map (·.type.text) := by
  cases o with
  | none => rfl
  | some c => exact congrArg some (TypeSyntax.text_move (t := c.type) h.behind)

/-! ## Heads -/

theorem Head.start_move (places : v.Places seen placed) (h : Head) (keyword : Token) :
    seen ((h.move v).start (v.token keyword)).location = placed (h.start keyword).location := by
  rw [Head.start, Head.start, ← Head.tokens_forest, forest_move, Forest.tokens_move,
    Head.tokens_forest]
  cases h.tokens with
  | nil => exact places keyword
  | cons t ts => exact places t

theorem Head.modifiers_move (h : Head) :
    (h.move v).modifiers.map Modifier.text = h.modifiers.map Modifier.text := by
  simp [Head.move, Modifier.text_move]

theorem Head.attributes_move {h : Head} (keeps : v.Keeps h.tokens) :
    (h.move v).attributes.map Attribute.text = h.attributes.map Attribute.text := by
  simp only [Head.move, List.map_map]
  exact List.map_congr_left fun a mem => Attribute.text_move (keeps.left.of_mem mem)

/-! ## Headers -/

namespace Header

theorem atomKind?_move (a : HeaderAtom) : atomKind? (a.move v) = atomKind? a := by
  cases a with
  | word t => exact congrArg some (v.kind_token t.val)
  | group => rfl

theorem nameParts_move : ∀ atoms : List HeaderAtom,
    nameParts (atoms.map (Atom.move v)) =
      ((nameParts atoms).1, (nameParts atoms).2.map (Atom.move v))
  | [] => rfl
  | [.word _] => rfl
  | .group .. :: _ => rfl
  | .word _ :: .group .. :: _ => rfl
  | .word dot :: .word part :: rest => by
    simp only [List.map_cons, Atom.move, nameParts, Word.val_move, v.kind_token]
    split
    · rw [nameParts_move rest, Word.text_move]
    · rfl

/-- What is left behind a name is the end of the atoms. -/
theorem suffix_nameParts : ∀ atoms : List HeaderAtom, (nameParts atoms).2 <:+ atoms
  | [] => List.suffix_refl _
  | [.word _] => List.suffix_refl _
  | .group .. :: _ => List.suffix_refl _
  | .word _ :: .group .. :: _ => List.suffix_refl _
  | .word dot :: .word part :: rest => by
    unfold nameParts
    split
    · exact ((suffix_nameParts rest).trans (List.suffix_cons ..)).trans (List.suffix_cons ..)
    · exact List.suffix_refl _

theorem cutAtCommas_move (depth : Int) (current atoms : List HeaderAtom) :
    cutAtCommas depth (current.map (Atom.move v)) (atoms.map (Atom.move v)) =
      (cutAtCommas depth current atoms).map (List.map (Atom.move v)) := by
  induction atoms generalizing depth current with
  | nil => simp [cutAtCommas]
  | cons a rest ih =>
    simp only [List.map_cons, cutAtCommas, atomKind?_move]
    split
    · simp
    · exact ih _ (a :: current)
    · exact ih _ (a :: current)
    · split
      · rw [List.map_cons, ← ih depth [], List.map_reverse, List.map_nil]
      · exact ih _ (a :: current)
    · exact ih _ (a :: current)

/-- The pieces with something in them move with the atoms. -/
theorem pieces_move (atoms : List HeaderAtom) :
    (cutAtCommas 0 [] (atoms.map (Atom.move v))).filter (!·.isEmpty) =
      ((cutAtCommas 0 [] atoms).filter (!·.isEmpty)).map (List.map (Atom.move v)) := by
  have cut : cutAtCommas 0 [] (atoms.map (Atom.move v)) =
      (cutAtCommas 0 [] atoms).map (List.map (Atom.move v)) := cutAtCommas_move 0 [] atoms
  have some : (fun piece : List HeaderAtom => !piece.isEmpty) ∘ List.map (Atom.move v) =
      fun piece => !piece.isEmpty := by
    funext piece
    cases piece <;> rfl
  rw [cut, List.filter_map, some]

/-- Each piece is a part of the atoms. -/
theorem infix_cutAtCommas {depth : Int} {current atoms piece : List HeaderAtom}
    (mem : piece ∈ cutAtCommas depth current atoms) : piece <:+: current.reverse ++ atoms := by
  induction atoms generalizing depth current with
  | nil =>
    obtain rfl := List.mem_singleton.mp mem
    exact List.prefix_append .. |>.isInfix
  | cons a rest ih =>
    have further {d : Int} (mem : piece ∈ cutAtCommas d (a :: current) rest) :
        piece <:+: current.reverse ++ a :: rest := by
      simpa using ih mem
    unfold cutAtCommas at mem
    split at mem
    · obtain rfl := List.mem_singleton.mp mem
      exact List.prefix_append .. |>.isInfix
    · exact further mem
    · exact further mem
    · split at mem
      · rcases List.mem_cons.mp mem with rfl | mem
        · exact List.prefix_append .. |>.isInfix
        · have behind : rest <:+ current.reverse ++ a :: rest := ⟨current.reverse ++ [a], by simp⟩
          exact (ih mem).trans behind.isInfix
      · exact further mem
    · exact further mem

theorem atomsText_move {atoms : List HeaderAtom} (h : v.Keeps (atoms.flatMap Atom.tokens)) :
    atomsText (atoms.map (Atom.move v)) = atomsText atoms := by
  have tokens : (atoms.map (Atom.move v)).flatMap Atom.tokens =
      (atoms.flatMap Atom.tokens).map v.token := by
    rw [← tokens_headerForest, headerForest_move, Forest.tokens_move, tokens_headerForest]
  rw [atomsText, tokens, h.stretch]
  rfl

theorem looseSupertypes_move {atoms : List HeaderAtom}
    (h : v.Keeps (atoms.flatMap Atom.tokens)) :
    looseSupertypes (atoms.map (Atom.move v)) = looseSupertypes atoms := by
  cases atoms with
  | nil => rfl
  | cons a rest =>
    simp only [List.map_cons, looseSupertypes, atomKind?_move]
    split
    · rw [pieces_move, List.map_map]
      refine List.map_congr_left fun piece mem => atomsText_move ?_
      have inner : v.Keeps (rest.flatMap Atom.tokens) := h.right
      exact inner.of_infix (infix_cutAtCommas (List.mem_filter.mp mem).1)
    · rfl

theorem fullName_move (h : Header) : (h.move v).fullName = h.fullName := by
  cases h with
  | structured => exact v.text_token _
  | loose head keyword name atoms => simp [Header.move, fullName, nameParts_move]

theorem supertypes_move {h : Header} (keeps : v.Keeps h.tokens) :
    (h.move v).supertypes = h.supertypes := by
  cases h with
  | structured head keyword name generics inheritance requirements =>
    have inner : v.Keeps (optionTokens Inheritance.tokens inheritance) := keeps.left.right
    cases inheritance with
    | none => rfl
    | some i =>
      have types : v.Keeps (i.types.tokens TypeTree.tokens) := inner.behind
      simp only [Header.move, supertypes, Option.map_some, Inheritance.move, Listed.toList_move,
        List.map_map]
      exact List.map_congr_left fun t mem => TypeSyntax.text_move (types.of_mem_listed mem)
  | loose head keyword name atoms =>
    have inner : v.Keeps (atoms.flatMap Atom.tokens) := keeps.right.behind.behind
    simp only [Header.move, supertypes, Word.val_move, v.kind_token, nameParts_move]
    split
    · exact looseSupertypes_move (inner.of_infix (suffix_nameParts atoms).isInfix)
    · exact looseSupertypes_move inner

theorem nominalHead_move (places : v.Places seen placed) {h : Header}
    (keeps : v.Keeps h.tokens) :
    (h.move v).nominalHead.relocate seen = h.nominalHead.relocate placed := by
  have head : (h.move v).head = h.head.move v := by cases h <;> rfl
  have keepsHead : v.Keeps h.head.tokens := by
    cases h with
    | structured => exact keeps.left.left.left
    | loose => exact keeps.left
  have start : seen (h.move v).start.location = placed h.start.location := by
    rw [Header.start, head, keyword_move]
    exact h.head.start_move places h.keyword
  simp only [nominalHead, NominalHead.relocate, start, head, keyword_move, v.kind_token,
    fullName_move, supertypes_move keeps, Head.modifiers_move, Head.attributes_move keepsHead]

end Header

/-! ## Properties -/

theorem Run.dropWords_move (p : Kind → Bool) (r : Run) :
    (r.move v).dropWords p = (r.dropWords p).move v := by
  induction r with
  | nil => rfl
  | group => rfl
  | word t rest ih =>
    simp only [Run.move, Run.dropWords, Word.val_move, v.kind_token]
    split
    · exact ih
    · rfl

theorem Run.firstWord?_move (r : Run) : (r.move v).firstWord? = r.firstWord?.map v.token := by
  cases r <;> rfl

theorem Run.hasBraceGroup_move (r : Run) : (r.move v).hasBraceGroup = r.hasBraceGroup := by
  induction r with
  | nil => rfl
  | word t rest ih => exact ih
  | group b opening body closing rest _ ih => simp [Run.move, Run.hasBraceGroup, ih]

theorem accessorStorage_move (r : Run) : accessorStorage (r.move v) = accessorStorage r := by
  simp only [accessorStorage, Run.dropWords_move, Run.firstWord?_move, Run.hasBraceGroup_move]
  cases (r.dropWords fun k => k == .mutatingKw || k == .nonmutatingKw).firstWord? <;> simp

namespace Binding

theorem storage_move (b : Binding) : (b.move v).storage = b.storage := by
  cases b with
  | plain pattern clause initializer observers => cases observers <;> rfl
  | computed pattern clause accessors => exact accessorStorage_move accessors.body

theorem namePattern_move (p : BindingPattern) :
    BindingPattern.name? (p.move v) = BindingPattern.name? p := by
  cases p with
  | name word => exact congrArg some (word.text_move v)
  | tuple => rfl

theorem name?_move (b : Binding) : (b.move v).name? = b.name? := by
  cases b <;> exact namePattern_move _

theorem declared_move {b : Binding} (keeps : v.Keeps b.tokens) :
    (b.move v).declared = b.declared := by
  cases b with
  | plain pattern clause initializer observers =>
    have type := TypeClause.type_move keeps.left.left.right
    have value := Initializer.value_move keeps.left.right
    simp only [Binding.move, declared, type, value, namePattern_move]
  | computed pattern clause accessors =>
    have type := TypeClause.type_move keeps.left.right
    simp only [Binding.move, declared, type, namePattern_move]

end Binding

namespace Property

theorem keyword_move (p : Property) : (p.move v).keyword = v.token p.keyword := by
  obtain ⟨head, classWord, binder, bindings⟩ := p
  cases classWord <;> rfl

theorem storage_move (p : Property) : (p.move v).storage = p.storage := by
  have same : (p.move v).bindings.toList.map Binding.storage =
      p.bindings.toList.map Binding.storage := by
    simp [Property.move, Binding.storage_move]
  rw [storage, storage, same]

theorem declaration_move (places : v.Places seen placed) {p : Property}
    (keeps : v.Keeps p.tokens) :
    (p.move v).declaration.relocate seen = p.declaration.relocate placed := by
  have bindings : (p.move v).bindings.toList.map Binding.declared =
      p.bindings.toList.map Binding.declared := by
    simp only [Property.move, Listed.toList_move, List.map_map]
    exact List.map_congr_left fun b mem =>
      Binding.declared_move (keeps.right.behind.of_mem_listed mem)
  have classWord : (p.move v).classWord.isSome = p.classWord.isSome := by simp [Property.move]
  simp only [declaration, bindings, classWord, storage_move, keyword_move]
  simp [Property.move, PropertyDecl.relocate, Head.start_move places, Head.modifiers_move]

end Property

/-! ## Cases -/

theorem labelOf_move {p : Kind → Bool} (w : Word p) : labelOf (w.move v) = labelOf w := by
  simp [labelOf]

theorem SlotSyntax.element_move {s : SlotSyntax} (keeps : v.Keeps s.tokens) :
    (s.move v).element = s.element := by
  cases s with
  | labelled label colon type default =>
    have text := TypeSyntax.text_move keeps.left.behind.behind
    have value := Initializer.value_move keeps.right
    simp only [SlotSyntax.move, element, text, value, labelOf_move]
  | positional type default =>
    have text := TypeSyntax.text_move keeps.left
    have value := Initializer.value_move keeps.right
    simp only [SlotSyntax.move, element, text, value]

theorem PayloadSyntax.elements_move {p : PayloadSyntax} (keeps : v.Keeps p.tokens) :
    (p.move v).toList.map SlotSyntax.element = p.toList.map SlotSyntax.element := by
  obtain ⟨opening, slots, closing⟩ := p
  cases slots with
  | none => rfl
  | some l =>
    have inner : v.Keeps (l.tokens SlotSyntax.tokens) := keeps.left.behind
    simp only [PayloadSyntax.move, toList, Option.map_some, Listed.toList_move, List.map_map]
    exact List.map_congr_left fun s mem => SlotSyntax.element_move (inner.of_mem_listed mem)

theorem CaseSyntax.element_move {c : CaseSyntax} (keeps : v.Keeps c.tokens) :
    (c.move v).element = c.element := by
  have raw := Initializer.value_move keeps.right
  have payload : (c.payload.map (PayloadSyntax.move v)).map
      (fun p => p.toList.map SlotSyntax.element) =
      c.payload.map fun p => p.toList.map SlotSyntax.element := by
    have inner := keeps.left.behind
    cases eq : c.payload with
    | none => rfl
    | some p => exact congrArg some (PayloadSyntax.elements_move (inner.of_option eq))
  simp only [CaseSyntax.move, element, raw, payload, Word.text_move]

theorem CaseGroup.declaration_move (places : v.Places seen placed) {c : CaseGroup}
    (keeps : v.Keeps c.tokens) :
    (c.move v).declaration.relocate seen = c.declaration.relocate placed := by
  have elements : (c.move v).cases.toList.map CaseSyntax.element =
      c.cases.toList.map CaseSyntax.element := by
    simp only [CaseGroup.move, Listed.toList_move, List.map_map]
    exact List.map_congr_left fun s mem =>
      CaseSyntax.element_move (keeps.right.behind.of_mem_listed mem)
  simp only [declaration, elements]
  simp [CaseGroup.move, CaseDecl.relocate, Head.start_move places, Head.modifiers_move]

/-! ## Leaves -/

namespace Leaf

theorem start_move (places : v.Places seen placed) (l : Leaf) :
    seen (l.move v).start.location = placed l.start.location := by
  cases l with
  | directive line => exact places line.val
  | property p =>
    simp only [Leaf.move, start, Property.keyword_move]
    exact p.head.start_move places p.keyword
  | function head classWord keyword name signature body =>
    cases classWord with
    | none => exact head.start_move places keyword.val
    | some w => exact head.start_move places w.val
  | cases c => exact c.head.start_move places c.keyword.val
  | constructor head keyword => exact head.start_move places keyword.val
  | destructor head keyword => exact head.start_move places keyword.val
  | subscript head keyword => exact head.start_move places keyword.val
  | typeAlias head keyword => exact head.start_move places keyword.val
  | importing head keyword => exact head.start_move places keyword.val

theorem description_move (l : Leaf) : (l.move v).description = l.description := by
  cases l with
  | property p =>
    simp [Leaf.move, description, Property.move, Listed.move, Binding.name?_move]
  | importing head keyword what name path =>
    have texts : (pathTokens (path.map fun p => (p.1.move v, p.2.move v))).map
        Token.text = (pathTokens path).map Token.text := by
      simp [pathTokens, List.flatMap_map, List.map_flatMap]
    simp [Leaf.move, description, texts]
  | _ => simp [Leaf.move, description, CaseGroup.move, Listed.move, CaseSyntax.move]

theorem stateless_move (places : v.Places seen placed) (l : Leaf) :
    (l.move v).stateless.relocate seen = l.stateless.relocate placed := by
  simp [stateless, start_move places, description_move, StatelessDecl.relocate]

theorem control_move (places : v.Places seen placed) (line : Tok .directive) :
    (control (line.move v)).relocate seen = (control line).relocate placed := by
  simp [control, Directive.relocate, places line.val]

theorem member_move (places : v.Places seen placed) {l : Leaf} (keeps : v.Keeps l.tokens) :
    (l.move v).member.relocate seen = l.member.relocate placed := by
  cases l with
  | directive line => exact congrArg Member.directive (control_move places line)
  | property p => exact congrArg Member.property (Property.declaration_move places keeps)
  | cases c => exact congrArg Member.cases (CaseGroup.declaration_move places keeps)
  | _ => exact congrArg Member.stateless (stateless_move places _)

theorem declaration_move (places : v.Places seen placed) (l : Leaf) :
    (l.move v).declaration.relocate seen = l.declaration.relocate placed := by
  cases l with
  | directive line => exact congrArg Declaration.directive (control_move places line)
  | _ => exact congrArg Declaration.stateless (stateless_move places _)

end Leaf

/-! ## Rows -/

namespace Items

theorem members_relocate (places : v.Places seen placed) {i : Items} (keeps : v.Keeps i.tokens) :
    Member.relocateAll seen (i.move v).members = Member.relocateAll placed i.members := by
  induction i with
  | nil => rfl
  | semicolon mark rest ih => exact ih keeps.behind
  | leaf l rest ih =>
    simp only [Items.move, members, Member.relocateAll, Leaf.member_move places keeps.left,
      ih keeps.right]
  | nominal header opening inner closing rest ihInner ihRest =>
    simp only [Items.move, members, Member.relocateAll, Member.relocate,
      Header.nominalHead_move places keeps.left.left, ihInner keeps.left.right.behind,
      ihRest keeps.right.behind]

/-- The declarations of a row are in other places. -/
theorem declarations_relocate (places : v.Places seen placed) {i : Items}
    (keeps : v.Keeps i.tokens) :
    (i.move v).declarations.map (Declaration.relocate seen) =
      i.declarations.map (Declaration.relocate placed) := by
  induction i with
  | nil => rfl
  | semicolon mark rest ih => exact ih keeps.behind
  | leaf l rest ih =>
    simp only [Items.move, declarations, List.map_cons, Leaf.declaration_move places,
      ih keeps.right]
  | nominal header opening inner closing rest ihInner ihRest =>
    simp only [Items.move, declarations, List.map_cons, Declaration.relocate, Nominal.relocate,
      Header.nominalHead_move places keeps.left.left,
      members_relocate places keeps.left.right.behind, ihRest keeps.right.behind]

/-- The declarations of a row stand further down. -/
theorem declarations_move {v : LineMove} {i : Items} (keeps : v.Keeps i.tokens) :
    (i.move v).declarations = i.declarations.map (Declaration.down v.lines) := by
  have places : v.Places id (Location.down v.lines) := v.location_token
  have same := declarations_relocate places keeps
  rwa [Declaration.relocate_id, List.map_id] at same

end Items

end Conformance.Grammar
