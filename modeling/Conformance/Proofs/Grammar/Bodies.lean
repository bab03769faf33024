import Conformance.Proofs.Grammar.Exactness
import Conformance.Proofs.Grammar.MoveDeclarations
import Conformance.Proofs.Grammar.Nesting
import Conformance.Proofs.Grammar.Settled

/-!
# Bodies

The bodies in a row are those of its functions, initializers, deinitializers and
subscripts, in the row itself and in the types of the row (`Items.bodies`).  A body comes with
the tokens in front of it and behind it.

Any group of braces may stand in the place of a body: there is a row with it that declares the
same and is settled where the other one is (`Items.exists_swap`).  So the tokens around a body are
read with any group between them, in whatever place (`exists_parse_swap`).
-/

namespace Conformance.Grammar

/-! ## Bodies of a row -/

/-- A body with what is around it. -/
structure BodySite where
  /-- The tokens in front. -/
  front : List Token
  /-- The body with its braces. -/
  group : Group .brace
  /-- The tokens behind. -/
  back : List Token

namespace BodySite

/-- The opening brace. -/
def opening (b : BodySite) : Token := b.group.opening.val

/-- The closing brace. -/
def closing (b : BodySite) : Token := b.group.closing.val

/-- A body with more around it. -/
def within (before after : List Token) (b : BodySite) : BodySite :=
  ⟨before ++ b.front, b.group, b.back ++ after⟩

/-- The tokens around a body, with a group in its place. -/
def swap (b : BodySite) (g : Group .brace) : List Token := b.front ++ g.tokens ++ b.back

@[simp] theorem swap_within (before after : List Token) (b : BodySite) (g : Group .brace) :
    (b.within before after).swap g = before ++ b.swap g ++ after := by
  simp [swap, within]

end BodySite

namespace Leaf

/-- The body of a leaf. -/
def body? : Leaf → Option BodySite
  | function head classWord keyword name signature body =>
    body.map fun g => ⟨head.tokens ++ optionTokens (fun w => [w.val]) classWord ++
      keyword.val :: name.val :: Signature.tokens signature, g, []⟩
  | constructor head keyword signature body
  | subscript head keyword signature body =>
    body.map fun g => ⟨head.tokens ++ keyword.val :: Signature.tokens signature, g, []⟩
  | destructor head keyword body => body.map fun g => ⟨head.tokens ++ [keyword.val], g, []⟩
  | _ => none

/-- A leaf that has a body with another one. -/
def swapBody (g : Group .brace) : Leaf → Leaf
  | function head classWord keyword name signature _ =>
    function head classWord keyword name signature (some g)
  | constructor head keyword signature _ => constructor head keyword signature (some g)
  | destructor head keyword _ => destructor head keyword (some g)
  | subscript head keyword signature _ => subscript head keyword signature (some g)
  | l => l

end Leaf

/-- The bodies in a row, in order. -/
def Items.bodies : Items → List BodySite
  | nil => []
  | semicolon mark rest => rest.bodies.map (BodySite.within [mark.val] [])
  | leaf l rest =>
    l.body?.toList.map (BodySite.within [] rest.tokens) ++
      rest.bodies.map (BodySite.within l.tokens [])
  | nominal header opening members closing rest =>
    members.bodies.map
        (BodySite.within (header.tokens ++ [opening.val]) (closing.val :: rest.tokens)) ++
      rest.bodies.map
        (BodySite.within (header.tokens ++ opening.val :: members.tokens ++ [closing.val]) [])

/-! ## Other bodies -/

namespace Leaf

variable {l : Leaf} {b : BodySite}

theorem tokens_body (is : l.body? = some b) : l.tokens = b.swap b.group := by
  cases l <;> simp only [body?, Option.map_eq_some_iff, reduceCtorEq] at is <;>
    obtain ⟨g, rfl, rfl⟩ := is <;> simp [tokens, BodySite.swap, optionTokens]

theorem front_ne_nil (is : l.body? = some b) : b.front ≠ [] := by
  cases l <;> simp only [body?, Option.map_eq_some_iff, reduceCtorEq] at is <;>
    obtain ⟨g, rfl, rfl⟩ := is <;> simp

theorem tokens_swapBody (is : l.body? = some b) (g : Group .brace) :
    (l.swapBody g).tokens = b.swap g := by
  cases l <;> simp only [body?, Option.map_eq_some_iff, reduceCtorEq] at is <;>
    obtain ⟨_, rfl, rfl⟩ := is <;> simp [swapBody, tokens, BodySite.swap, optionTokens]

@[simp] theorem member_swapBody (l : Leaf) (g : Group .brace) :
    (l.swapBody g).member = l.member := by
  cases l with
  | function head classWord => cases classWord <;> rfl
  | _ => rfl

@[simp] theorem declaration_swapBody (l : Leaf) (g : Group .brace) :
    (l.swapBody g).declaration = l.declaration := by
  cases l with
  | function head classWord => cases classWord <;> rfl
  | _ => rfl

/-- A leaf with a body is settled wherever it stands. -/
theorem settled_swapBody (is : l.body? = some b) (g : Group .brace) (behind : List Token) :
    (l.swapBody g).forest.Settled behind := by
  have derives := (l.swapBody g).derives_below
  cases l <;> first | exact derives.settled rfl behind | cases is

end Leaf

/-- A row that stands where another one does, with a group in the place of a body. -/
structure Items.IsSwap (i : Items) (b : BodySite) (g : Group .brace) (j : Items) : Prop where
  /-- The tokens around the body are the same. -/
  tokens : j.tokens = b.swap g
  /-- The members are the same. -/
  members : j.members = i.members
  /-- The declarations are the same. -/
  declarations : j.declarations = i.declarations
  /-- It is settled where the other one is. -/
  settled : ∀ behind, i.forest.Settled behind → j.forest.Settled behind

namespace Items

variable {i : Items} {b : BodySite}

/-- The tokens of a row are those of a body and around it.  Some are in front of the body. -/
theorem tokens_of_mem_bodies (mem : b ∈ i.bodies) : b.front ≠ [] ∧ i.tokens = b.swap b.group := by
  induction i generalizing b with
  | nil => cases mem
  | semicolon mark rest ih =>
    obtain ⟨c, inside, rfl⟩ := List.mem_map.mp mem
    refine ⟨by simp [BodySite.within], ?_⟩
    simp [tokens, (ih inside).2, BodySite.within, BodySite.swap]
  | leaf l rest ih =>
    rcases List.mem_append.mp mem with mem | mem
    · obtain ⟨c, is, rfl⟩ := List.mem_map.mp mem
      have is := Option.mem_toList.mp is
      refine ⟨by simp [BodySite.within, Leaf.front_ne_nil is], ?_⟩
      simp [tokens, Leaf.tokens_body is, BodySite.within, BodySite.swap]
    · obtain ⟨c, inside, rfl⟩ := List.mem_map.mp mem
      have inner := ih inside
      refine ⟨by simp [BodySite.within, inner.1], ?_⟩
      simp [tokens, inner.2, BodySite.within, BodySite.swap]
  | nominal header opening members closing rest ihMembers ihRest =>
    rcases List.mem_append.mp mem with mem | mem
    · obtain ⟨c, inside, rfl⟩ := List.mem_map.mp mem
      refine ⟨by simp [BodySite.within], ?_⟩
      simp [tokens, (ihMembers inside).2, BodySite.within, BodySite.swap]
    · obtain ⟨c, inside, rfl⟩ := List.mem_map.mp mem
      refine ⟨by simp [BodySite.within], ?_⟩
      simp [tokens, (ihRest inside).2, BodySite.within, BodySite.swap]

/-- The token in front of a row is in front of its bodies. -/
theorem IsSwap.head? {g : Group .brace} {j : Items} (mem : b ∈ i.bodies) (h : i.IsSwap b g j)
    (behind : List Token) : (i.tokens ++ behind).head? = (j.tokens ++ behind).head? := by
  obtain ⟨some, whole⟩ := tokens_of_mem_bodies mem
  obtain ⟨t, ts, front⟩ := List.exists_cons_of_ne_nil some
  simp [whole, h.tokens, BodySite.swap, front]

/-- Any group may stand in the place of a body. -/
theorem exists_swap (mem : b ∈ i.bodies) (g : Group .brace) : ∃ j, i.IsSwap b g j := by
  induction i generalizing b with
  | nil => cases mem
  | semicolon mark rest ih =>
    obtain ⟨c, inside, rfl⟩ := List.mem_map.mp mem
    obtain ⟨j, h⟩ := ih inside
    refine ⟨semicolon mark j, ?_, h.members, h.declarations, fun behind settled => ?_⟩
    · simp [tokens, h.tokens]
    · exact settled_semicolon_iff.mpr (h.settled behind (settled_semicolon_iff.mp settled))
  | leaf l rest ih =>
    rcases List.mem_append.mp mem with mem | mem
    · obtain ⟨c, is, rfl⟩ := List.mem_map.mp mem
      have is := Option.mem_toList.mp is
      refine ⟨leaf (l.swapBody g) rest, ?_, ?_, ?_, fun behind settled => ?_⟩
      · simp [tokens, Leaf.tokens_swapBody is]
      · simp [members]
      · simp [declarations]
      · exact settled_leaf_iff.mpr
          ⟨Leaf.settled_swapBody is g _, (settled_leaf_iff.mp settled).2⟩
    · obtain ⟨c, inside, rfl⟩ := List.mem_map.mp mem
      obtain ⟨j, h⟩ := ih inside
      refine ⟨leaf l j, ?_, ?_, ?_, fun behind settled => ?_⟩
      · simp [tokens, h.tokens]
      · simp [members, h.members]
      · simp [declarations, h.declarations]
      · obtain ⟨front, others⟩ := settled_leaf_iff.mp settled
        exact settled_leaf_iff.mpr
          ⟨front.behind (.inr (h.head? inside behind)), h.settled behind others⟩
  | nominal header opening members closing rest ihMembers ihRest =>
    rcases List.mem_append.mp mem with mem | mem
    · obtain ⟨c, inside, rfl⟩ := List.mem_map.mp mem
      obtain ⟨j, h⟩ := ihMembers inside
      refine ⟨nominal header opening j closing rest, ?_, ?_, ?_, fun behind settled => ?_⟩
      · simp [tokens, h.tokens]
      · simp [Items.members, h.members]
      · simp [declarations, h.members]
      · obtain ⟨inner, others⟩ := settled_nominal_iff.mp settled
        exact settled_nominal_iff.mpr ⟨h.settled _ inner, others⟩
    · obtain ⟨c, inside, rfl⟩ := List.mem_map.mp mem
      obtain ⟨j, h⟩ := ihRest inside
      refine ⟨nominal header opening members closing j, ?_, ?_, ?_, fun behind settled => ?_⟩
      · simp [tokens, h.tokens]
      · simp [Items.members, h.members]
      · simp [declarations, h.declarations]
      · obtain ⟨inner, others⟩ := settled_nominal_iff.mp settled
        refine settled_nominal_iff.mpr ⟨inner.behind (.inr rfl), h.settled behind others⟩

end Items

/-! ## Bodies in another place -/

section
variable (v : Move)

/-- A body is moved with what is around it. -/
def BodySite.move (b : BodySite) : BodySite :=
  ⟨b.front.map v.token, b.group.move v, b.back.map v.token⟩

theorem BodySite.move_within (before after : List Token) (b : BodySite) :
    (b.within before after).move v =
      (b.move v).within (before.map v.token) (after.map v.token) := by
  simp [move, within]

theorem Head.tokens_move (h : Head) : (h.move v).tokens = h.tokens.map v.token := by
  rw [← Head.tokens_forest, Head.forest_move, Forest.tokens_move, Head.tokens_forest]

theorem Signature.tokens_move (s : Signature) :
    Signature.tokens (s.map (Atom.move v)) = (Signature.tokens s).map v.token := by
  rw [← Signature.tokens_forest, Signature.forest_move, Forest.tokens_move,
    Signature.tokens_forest]

theorem Header.tokens_move (h : Header) : (h.move v).tokens = h.tokens.map v.token := by
  have same := congrArg Forest.tokens (h.forest_move v .nil)
  simpa using same

theorem Leaf.tokens_move (l : Leaf) : (l.move v).tokens = l.tokens.map v.token := by
  rw [← Leaf.tokens_forest, Leaf.forest_move, Forest.tokens_move, Leaf.tokens_forest]

theorem Leaf.body?_move (l : Leaf) : (l.move v).body? = l.body?.map (BodySite.move v) := by
  cases l with
  | function head classWord keyword name signature body =>
    cases classWord <;> cases body <;>
      simp [Leaf.move, body?, BodySite.move, Head.tokens_move, Signature.tokens_move, optionTokens]
  | constructor head keyword signature body =>
    cases body <;> simp [Leaf.move, body?, BodySite.move, Head.tokens_move, Signature.tokens_move]
  | destructor head keyword body =>
    cases body <;> simp [Leaf.move, body?, BodySite.move, Head.tokens_move]
  | subscript head keyword signature body =>
    cases body <;> simp [Leaf.move, body?, BodySite.move, Head.tokens_move, Signature.tokens_move]
  | _ => rfl

theorem Items.bodies_move (i : Items) : (i.move v).bodies = i.bodies.map (BodySite.move v) := by
  induction i with
  | nil => rfl
  | semicolon mark rest ih =>
    simp [Items.move, bodies, ih, BodySite.move_within, Function.comp_def]
  | leaf l rest ih =>
    cases eq : l.body? <;>
      simp [Items.move, bodies, ih, BodySite.move_within, Function.comp_def, Leaf.body?_move, eq,
        Leaf.tokens_move, Items.tokens_move]
  | nominal header opening members closing rest ihMembers ihRest =>
    simp [Items.move, bodies, ihMembers, ihRest, BodySite.move_within, Function.comp_def,
      Header.tokens_move, Items.tokens_move]

end

/-! ## Reading other bodies -/

/-- Level tokens in brackets are a group. -/
theorem exists_group {b : Bracket} {opening closing : Token} {ts : List Token}
    (opens : opening.kind = b.opener) (closes : closing.kind = b.closer)
    (level : IsLevel (ts.map Token.kind)) :
    ∃ g : Group b, g.tokens = opening :: ts ++ [closing] := by
  obtain ⟨r, rfl⟩ := exists_run level
  exact ⟨⟨⟨opening, beq_iff_eq.mpr opens⟩, r, ⟨closing, beq_iff_eq.mpr closes⟩⟩, rfl⟩

/-- What is around a body is read with any group in its place. -/
theorem exists_parse_swap {i : Items} {b : BodySite} (settled : i.forest.Settled [])
    (mem : b ∈ i.bodies) (v : Move) (g : Group .brace) :
    ∃ j, parse ((b.move v).swap g) = .done j [] ∧ j.declarations = (i.move v).declarations := by
  have moved : b.move v ∈ (i.move v).bodies := by
    rw [Items.bodies_move]
    exact List.mem_map_of_mem mem
  obtain ⟨j, h⟩ := Items.exists_swap moved g
  refine ⟨j, ?_, h.declarations⟩
  rw [← h.tokens]
  refine Items.parse_tokens (h.settled [] ?_)
  rw [Items.forest_move]
  exact settled.move v

end Conformance.Grammar
