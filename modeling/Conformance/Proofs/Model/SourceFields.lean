import Conformance.Proofs.Grammar.Exactness
import Conformance.Proofs.Grammar.Settled
import Conformance.Proofs.Model.Fields
import Conformance.Source

/-!
# From a source to fields

Line breaks do not count, so the tokens of a type's members could be cut into members
in more than one way.  If they are those of some members one behind the other, each
derivable by itself and none with a dot at its end, then the source is read with just
these members, and the fields of the type are theirs (`SourceFile.read_fields`).

A type among the members has a row of its own, in which a dot may stand at the end of a
member.  So of types among the members it is asked in addition that they are settled.
`read_unsettledMember` shows that nothing less would do.
-/

namespace Conformance

namespace Grammar

/-! ## Members by themselves -/

/-- The rules of type declarations. -/
def typeRules : List Rule :=
  [.structDecl, .classDecl, .enumDecl, .actorDecl, .protocolDecl, .extensionDecl]

/-- Whether a member is a type declaration. -/
def Forest.declaresType (member : Forest) : Bool :=
  ((member.parts .item).flatMap (parts .decl)).any fun d =>
    typeRules.any fun r => !(d.parts r).isEmpty

/-- A member is derivable by itself and does not end in a dot. -/
structure IsMember (member : Forest) : Prop where
  /-- It is derivable. -/
  derives : Derives (.part .item) member
  /-- It does not end in a dot. -/
  endsOffDot : member.EndsOffDot

/-- A row of declarations has items. -/
theorem exists_row {f : Forest} (h : Derives (.many (.part .item)) f) :
    ∃ i : Items, f = i.forest := by
  have start : Derives (.part .start) (.under .start f) := .part h
  obtain ⟨i, eq⟩ := exists_items start
  rw [Items.derivation, Forest.under, Forest.under, Forest.node.injEq] at eq
  exact ⟨i, eq.2.1⟩

/-- The tree of a type declaration among others. -/
def typeTree (header : Header) (opening : Tok .leftBrace) (inner : Forest)
    (closing : Tok .rightBrace) : Forest :=
  .under .item (.under .decl (.under (nominalRule header.keyword.kind)
    (header.forest (.under .memberBlock
      (.ofToken opening.val ++ (inner ++ .ofToken closing.val))))))

/-- A member is a semicolon, a leaf or a type declaration. -/
theorem exists_entry {member : Forest} (h : Derives (.part .item) member) :
    (∃ mark : Tok .semicolon, member = .under .item (.ofToken mark.val)) ∨
      (∃ l : Leaf, member = .under .item (.under .decl (.under l.rule l.forest))) ∨
      ∃ (header : Header) (opening : Tok .leftBrace) (inner : Items) (closing : Tok .rightBrace),
        member = typeTree header opening inner.forest closing := by
  obtain ⟨g, ⟨i, eq⟩, rfl⟩ := h.holds IsPhrase.of_holds
  cases i with
  | nil => cases eq
  | semicolon mark rest =>
    injection eq with _ below _
    exact .inl ⟨mark, congrArg (Forest.under .item) below⟩
  | leaf l rest =>
    injection eq with _ below _
    exact .inr (.inl ⟨l, congrArg (Forest.under .item) below⟩)
  | nominal header opening inner closing rest =>
    injection eq with _ below _
    exact .inr (.inr ⟨header, opening, inner, closing, congrArg (Forest.under .item) below⟩)

theorem derives_typeTree {header : Header} {opening : Tok .leftBrace} {inner : Forest}
    {closing : Tok .rightBrace} (h : Derives (.many (.part .item)) inner) :
    Derives (.part .item) (typeTree header opening inner closing) := by
  have block : Derives (.part .memberBlock) (.under .memberBlock
      (.ofToken opening.val ++ (inner ++ .ofToken closing.val))) :=
    .part (.seq (.ofKind opening) (.seq h (.ofKind closing)))
  exact .part (.left (header.derives block))

theorem declaresType_typeTree (header : Header) (opening : Tok .leftBrace) (inner : Forest)
    (closing : Tok .rightBrace) :
    (typeTree header opening inner closing).declaresType = true := by
  have rules : ∀ k, nominalRule k ∈ typeRules := by decide
  simp only [typeTree, Forest.declaresType, Forest.parts_under, if_true, List.flatMap_singleton,
    List.any_cons, List.any_nil, Bool.or_false]
  exact List.any_eq_true.mpr ⟨_, rules header.keyword.kind, by simp⟩

/-- A member is settled wherever it stands. -/
theorem IsMember.settled {member : Forest} (h : IsMember member)
    (nested : member.declaresType = true → member.Settled []) (behind : List Token) :
    member.Settled behind := by
  obtain ⟨mark, rfl⟩ | ⟨l, rfl⟩ | ⟨header, opening, inner, closing, rfl⟩ :=
    exists_entry h.derives
  · exact (Forest.settled_under (by decide) ..).mpr trivial
  · have off : l.forest.EndsOffDot := by
      intro t last
      exact h.endsOffDot t (by simpa using last)
    refine (Forest.settled_under (by decide) ..).mpr ((Forest.settled_under (by decide) ..).mpr ?_)
    exact (Forest.settled_under l.rule_ne_exprAtom ..).mpr (Leaf.settled_of_endsOffDot off behind)
  · exact (nested (declaresType_typeTree ..)).behind (.inl h.endsOffDot)

theorem settled_concat {members : List Forest}
    (each : ∀ m ∈ members, ∀ behind, m.Settled behind) (behind : List Token) :
    (Forest.concat members).Settled behind := by
  induction members with
  | nil => trivial
  | cons m members ih =>
    rw [Forest.concat_cons, Forest.settled_append]
    exact ⟨each m (by simp) _, ih fun m' mem => each m' (by simp [mem])⟩

theorem derives_concat {members : List Forest} (each : ∀ m ∈ members, IsMember m) :
    Derives (.many (.part .item)) (.concat members) := by
  induction members with
  | nil => exact .none
  | cons m members ih =>
    exact .more (each m (by simp)).derives (ih fun m' mem => each m' (by simp [mem]))

/-- The fields of members in a row are those of the members. -/
theorem fields_concat {members : List Forest} (each : ∀ m ∈ members, IsMember m)
    (source : List Char) (unknownType : String) :
    ((Forest.concat members).parts .item).filterMap (Forest.itemField? source unknownType) =
      members.filterMap (Forest.field? source unknownType) := by
  induction members with
  | nil => rfl
  | cons m members ih =>
    have others := ih fun m' mem => each m' (by simp [mem])
    obtain ⟨g, -, rfl⟩ := (each m (by simp)).derives.holds IsPhrase.of_holds
    rw [Forest.concat_cons, Forest.parts_append, List.filterMap_append, others]
    simp only [Forest.parts_under, if_true, List.filterMap_cons, List.filterMap_nil,
      Forest.field?, List.head?_cons, Option.bind_some]
    cases g.itemField? source unknownType <;> rfl

/-! ## Headers -/

theorem typeTree_settled {header : Header} {opening : Tok .leftBrace} {inner : Forest}
    {closing : Tok .rightBrace} {behind : List Token}
    (settled : ∀ behind, inner.Settled behind) :
    (typeTree header opening inner closing).Settled behind := by
  refine (Forest.settled_under (by decide) ..).mpr ((Forest.settled_under (by decide) ..).mpr ?_)
  refine (Forest.settled_under (nominalRule_ne_exprAtom _) ..).mpr (header.settled_forest ?_)
  refine (Forest.settled_under (by decide) ..).mpr ?_
  simp only [Forest.settled_append]
  exact ⟨trivial, settled _, trivial⟩

/-! ## A type in a source -/

/-- A structure or class among the other declarations of a source, with its members one by
one. -/
structure TypeInSource where
  /-- The declarations in front of it. -/
  before : Forest
  /-- What stands in front of its members. -/
  header : Header
  /-- The brace in front of its members. -/
  opening : Tok .leftBrace
  /-- Its members. -/
  members : List Forest
  /-- The brace behind its members. -/
  closing : Tok .rightBrace
  /-- The declarations behind it. -/
  after : Forest

namespace TypeInSource

/-- The tree of the declaration. -/
def tree (d : TypeInSource) : Forest :=
  typeTree d.header d.opening (.concat d.members) d.closing

/-- The tokens of the source. -/
def tokens (d : TypeInSource) : List Token :=
  d.before.tokens ++ (d.tree.tokens ++ d.after.tokens)

/-- The type is a structure or class, each of its members is one by itself, and what stands
around it is derivable and settled. -/
structure WellFormed (d : TypeInSource) : Prop where
  /-- It is a structure or class. -/
  product : d.header.keyword.kind = .structKw ∨ d.header.keyword.kind = .classKw
  /-- Its members are members by themselves. -/
  members : ∀ m ∈ d.members, IsMember m
  /-- What stands in front of it are declarations. -/
  before : Derives (.many (.part .item)) d.before
  /-- No dot in front of it takes a word of it along. -/
  settledBefore : d.before.Settled (d.tree.tokens ++ d.after.tokens)
  /-- What stands behind it are declarations. -/
  after : Derives (.many (.part .item)) d.after
  /-- They are settled. -/
  settledAfter : d.after.Settled []

/-- Each member of the type is one by itself, and what stands around the type is derivable and
settled. -/
structure IsRow (d : TypeInSource) : Prop where
  /-- Its members are members by themselves. -/
  members : ∀ m ∈ d.members, IsMember m
  /-- What stands in front of it are declarations. -/
  before : Derives (.many (.part .item)) d.before
  /-- No dot in front of it takes a word of it along. -/
  settledBefore : d.before.Settled (d.tree.tokens ++ d.after.tokens)
  /-- What stands behind it are declarations. -/
  after : Derives (.many (.part .item)) d.after
  /-- They are settled. -/
  settledAfter : d.after.Settled []

theorem WellFormed.isRow {d : TypeInSource} (h : d.WellFormed) : d.IsRow where
  members := h.members
  before := h.before
  settledBefore := h.settledBefore
  after := h.after
  settledAfter := h.settledAfter

/-- The declarations of a type in a source, with what stands around it. -/
structure Rows (d : TypeInSource) where
  /-- The row in front of it. -/
  before : Items
  /-- The row of its members. -/
  inner : Items
  /-- The row behind it. -/
  after : Items
  /-- The row in front of it is what stands there. -/
  forest_before : d.before = before.forest
  /-- The row of its members is theirs. -/
  forest_inner : .concat d.members = inner.forest
  /-- The row behind it is what stands there. -/
  forest_after : d.after = after.forest

namespace Rows

variable {d : TypeInSource} (r : d.Rows)

/-- The type as it is declared. -/
def nominal : Nominal := ⟨d.header.nominalHead, r.inner.members⟩

/-- The declarations of the source. -/
def declarations : List Declaration :=
  r.before.declarations ++ .nominal r.nominal :: r.after.declarations

theorem outlines_before : r.before.declarations.map Declaration.outline = d.before.declared := by
  rw [Forest.declared, r.forest_before, r.before.outlines_declarations]

theorem outlines_after : r.after.declarations.map Declaration.outline = d.after.declared := by
  rw [Forest.declared, r.forest_after, r.after.outlines_declarations]

theorem inner_within : r.inner.tokens <:+: d.tokens := by
  rw [← r.inner.tokens_forest, ← r.forest_inner]
  refine ⟨d.before.tokens ++ (d.header.tokens ++ [d.opening.val]),
    d.closing.val :: d.after.tokens, ?_⟩
  simp [tokens, tree, typeTree]

end Rows

theorem IsRow.exists_rows {d : TypeInSource} (h : d.IsRow) : Nonempty d.Rows := by
  obtain ⟨before, eqBefore⟩ := exists_row h.before
  obtain ⟨inner, eqInner⟩ := exists_row (derives_concat h.members)
  obtain ⟨after, eqAfter⟩ := exists_row h.after
  exact ⟨before, inner, after, eqBefore, eqInner, eqAfter⟩

/-- A type is read from its source with its members one by one. -/
theorem IsRow.read {d : TypeInSource} (h : d.IsRow)
    (nested : ∀ m ∈ d.members, m.declaresType = true → m.Settled [])
    {text : String} (clean : (lex text.toList).stray? = none)
    (tokens : (lex text.toList).delivered = d.tokens) (filename : Option String) (r : d.Rows) :
    SourceFile.read text filename = .ok ⟨r.declarations, filename⟩ := by
  -- The row that is read, and its derivation.
  let row := r.before ++ Items.nominal d.header d.opening r.inner d.closing r.after
  have forest : row.forest = d.before ++ (d.tree ++ d.after) := by
    rw [Items.forest_append, r.forest_before, r.forest_after, tree, r.forest_inner]
    rfl
  have rowTokens : row.tokens = d.tokens := by
    rw [← row.tokens_forest, forest, Forest.tokens_append, Forest.tokens_append]
    rfl
  have settledInner := settled_concat fun m mem => (h.members m mem).settled (nested m mem)
  have settled : row.forest.Settled [] := by
    rw [forest, Forest.settled_append, Forest.settled_append, List.append_nil, List.append_nil,
      Forest.tokens_append]
    exact ⟨h.settledBefore, typeTree_settled settledInner, h.settledAfter⟩
  have parsed : parse (lex text.toList).delivered = .done row [] := by
    rw [tokens, ← rowTokens]
    exact Items.parse_tokens settled
  have declarations : row.declarations = r.declarations := Items.declarations_append ..
  rw [← declarations]
  exact SourceFile.read_eq_ok.mpr ⟨row, clean, parsed, rfl⟩

/-- The tokens of the members stand in the source, spelled as their kinds are. -/
theorem Rows.inner_tokens {d : TypeInSource} (r : d.Rows) {source : List Char}
    (tokens : (lex source).delivered = d.tokens) :
    (∃ q, Token.Tiles source q r.inner.tokens) ∧ ∀ t ∈ r.inner.tokens, t.Spelled := by
  have within := r.inner_within
  rw [← tokens] at within
  exact ⟨(tiles_delivered source).within within,
    fun t mem => spelled_delivered source t (within.subset mem)⟩

end TypeInSource

end Grammar

open Grammar

/-- A structure or class is read from its source, and its fields are those of its members: for each
stored property that belongs to its values and begins with an identifier one, with the type and the
value that are written in the source. -/
theorem SourceFile.read_fields {d : TypeInSource} (wellFormed : d.WellFormed)
    (nested : ∀ m ∈ d.members, m.declaresType = true → m.Settled [])
    {text : String} (clean : (lex text.toList).stray? = none)
    (tokens : (lex text.toList).delivered = d.tokens) (filename : Option String)
    (unknownType : String) :
    ∃ front n back, read text filename = .ok ⟨front ++ .nominal n :: back, filename⟩ ∧
      front.map Declaration.outline = d.before.declared ∧
      back.map Declaration.outline = d.after.declared ∧
      n.head = d.header.nominalHead ∧ n.head.kind.shape = .product ∧
      n.fields unknownType = d.members.filterMap (Forest.field? text.toList unknownType) := by
  obtain ⟨r⟩ := wellFormed.isRow.exists_rows
  refine ⟨r.before.declarations, r.nominal, r.after.declarations,
    wellFormed.isRow.read nested clean tokens filename r, r.outlines_before, r.outlines_after,
    rfl, ?_, ?_⟩
  · simp only [TypeInSource.Rows.nominal, Header.nominalHead]
    rcases wellFormed.product with is | is <;> rw [is] <;> rfl
  · obtain ⟨⟨q, tiles⟩, spelled⟩ := r.inner_tokens tokens
    have fields := r.inner.fields_members unknownType tiles spelled
    rwa [← r.forest_inner, fields_concat wellFormed.members] at fields

/-! ## Two sources -/

/-- A token on the first line of a source. -/
def tokenAt (kind : Kind) (layout text : String) (offset : Nat) : Token :=
  ⟨kind, layout, text, ⟨offset, 1, offset + 1⟩,
    ⟨offset + text.length, 1, offset + text.length + 1⟩⟩

/-- The same as a token of one kind. -/
def tokAt (kind : Kind) (layout text : String) (offset : Nat) : Tok kind :=
  ⟨tokenAt kind layout text offset, beq_self_eq_true kind⟩

/-- The text of a structure with a property of the type, one of its values and a type. -/
def threeMembersText : String := "struct S \x7b static let a = 1 var b: Int = c struct N \x7b \x7d \x7d"

/-- The members of that structure. -/
def threeMembers : TypeInSource where
  before := .nil
  header := .structured ⟨[], []⟩ ⟨tokenAt .structKw "" "struct" 0, rfl⟩
    (tokAt .name " " "S" 7) none none none
  opening := tokAt .leftBrace " " "\x7b" 9
  members := [
    .under .item (.under .decl (.under .varDecl (Property.forest {
      head := ⟨[], [.plain ⟨tokenAt .staticKw " " "static" 11, rfl⟩]⟩
      classWord := none
      binder := ⟨tokenAt .letKw " " "let" 18, rfl⟩
      bindings := ⟨.plain (.name ⟨tokenAt .name " " "a" 22, rfl⟩) none
        (some ⟨tokAt .equal " " "=" 24,
          .plain (.word ⟨tokenAt .number " " "1" 26, rfl⟩), []⟩) none, []⟩ }))),
    .under .item (.under .decl (.under .varDecl (Property.forest {
      head := ⟨[], []⟩
      classWord := none
      binder := ⟨tokenAt .varKw " " "var" 28, rfl⟩
      bindings := ⟨.plain (.name ⟨tokenAt .name " " "b" 32, rfl⟩)
        (some ⟨tokAt .colon "" ":" 33,
          .composed (.marked (.named (.plain (tokAt .name " " "Int" 35)) .pathEnd) [])
            .noConjunct⟩)
        (some ⟨tokAt .equal " " "=" 39,
          .plain (.word ⟨tokenAt .name " " "c" 41, rfl⟩), []⟩) none, []⟩ }))),
    typeTree (.structured ⟨[], []⟩ ⟨tokenAt .structKw " " "struct" 43, rfl⟩
      (tokAt .name " " "N" 50) none none none) (tokAt .leftBrace " " "\x7b" 52) .nil
      (tokAt .rightBrace " " "\x7d" 54)]
  closing := tokAt .rightBrace " " "\x7d" 56
  after := .nil

theorem threeMembers_tokens : (lex threeMembersText.toList).stray? = none ∧
    (lex threeMembersText.toList).delivered = threeMembers.tokens := by
  decide +kernel

theorem wellFormed_threeMembers : threeMembers.WellFormed where
  product := .inl rfl
  before := .none
  settledBefore := trivial
  after := .none
  settledAfter := trivial
  members := by
    intro m mem
    simp only [threeMembers, List.mem_cons, List.not_mem_nil, or_false] at mem
    obtain rfl | rfl | rfl := mem
    · exact ⟨.part (.left (Leaf.property _).derives), by rintro t ⟨⟩; decide⟩
    · exact ⟨.part (.left (Leaf.property _).derives), by rintro t ⟨⟩; decide⟩
    · exact ⟨derives_typeTree .none, by rintro t ⟨⟩; decide⟩

theorem SourceFile.read_threeMembers :
    ∃ front n back, read threeMembersText none = .ok ⟨front ++ .nominal n :: back, none⟩ ∧
      n.fields "<unknown>" = [⟨"b", "Int", some "c"⟩] := by
  have nested : ∀ m ∈ threeMembers.members, m.declaresType = true → m.Settled [] := by
    intro m mem isType
    simp only [threeMembers, List.mem_cons, List.not_mem_nil, or_false] at mem
    obtain rfl | rfl | rfl := mem
    · cases isType
    · cases isType
    · exact typeTree_settled fun _ => trivial
  obtain ⟨front, n, back, read, -, -, -, -, fields⟩ := SourceFile.read_fields
    wellFormed_threeMembers nested threeMembers_tokens.1 threeMembers_tokens.2 none "<unknown>"
  refine ⟨front, n, back, read, fields.trans ?_⟩
  decide +kernel

/-- The text of a structure with a type in it, where a property ends in a dot. -/
def unsettledText : String := "struct S \x7b struct N \x7b let a = . init throws \x7b \x7d \x7d \x7d"

/-- The members of that type, if the dot takes no word along: a property and an initializer. -/
def unsettledRow : Items :=
  .leaf (.property {
    head := ⟨[], []⟩
    classWord := none
    binder := ⟨tokenAt .letKw " " "let" 22, rfl⟩
    bindings := ⟨.plain (.name ⟨tokenAt .name " " "a" 26, rfl⟩) none
      (some ⟨tokAt .equal " " "=" 28,
        .plain (.word ⟨tokenAt .dot " " "." 30, rfl⟩), []⟩) none, []⟩ })
  (.leaf (.constructor ⟨[], []⟩ (tokAt .initKw " " "init" 32)
    [.word ⟨tokenAt .throwsKw " " "throws" 37, rfl⟩]
    (some ⟨tokAt .leftBrace " " "\x7b" 44, .nil, tokAt .rightBrace " " "\x7d" 46⟩))
  .nil)

/-- The word of that type. -/
def innerWord : Word Kind.isStructuredNominal := ⟨tokenAt .structKw " " "struct" 11, rfl⟩

/-- The structure with that type as its only member. -/
def unsettledMember : TypeInSource where
  before := .nil
  header := .structured ⟨[], []⟩ ⟨tokenAt .structKw "" "struct" 0, rfl⟩
    (tokAt .name " " "S" 7) none none none
  opening := tokAt .leftBrace " " "\x7b" 9
  members := [typeTree (.structured ⟨[], []⟩ innerWord
    (tokAt .name " " "N" 18) none none none) (tokAt .leftBrace " " "\x7b" 20)
    unsettledRow.forest (tokAt .rightBrace " " "\x7d" 48)]
  closing := tokAt .rightBrace " " "\x7d" 50
  after := .nil

/-- Derivable members without dots at their ends do not make a source readable. -/
theorem read_unsettledMember : unsettledMember.WellFormed ∧
    (lex unsettledText.toList).stray? = none ∧
    (lex unsettledText.toList).delivered = unsettledMember.tokens ∧
    ∀ s, SourceFile.read unsettledText none ≠ .ok s := by
  have lexed : (lex unsettledText.toList).stray? = none ∧
      (lex unsettledText.toList).delivered = unsettledMember.tokens := by
    decide +kernel
  have fails : (SourceFile.read unsettledText none).isOk = false := by
    decide +kernel
  refine ⟨⟨.inl rfl, ?_, .none, trivial, .none, trivial⟩, lexed.1, lexed.2, ?_⟩
  · intro m mem
    obtain rfl := List.mem_singleton.mp mem
    exact ⟨derives_typeTree unsettledRow.derives, by rintro t ⟨⟩; decide⟩
  · intro s read
    rw [read] at fails
    cases fails

end Conformance
