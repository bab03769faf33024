import Conformance.Proofs.Grammar.Completeness
import Conformance.Proofs.Grammar.ItemDerivation

/-!
# What settles a derivation

Only a dot at the end of an expression can be unsettled, and only by a member word
right behind it.  So most phrases are settled wherever they stand, because no
expression is in them, and a declaration without declarations in it is settled
unless it ends in a dot with a member word behind.

What is behind a row counts through its first token alone, and not even that if
the row does not end in a dot (`Forest.Settled.behind`).
-/

namespace Conformance.Grammar

/-! ## What is behind a row -/

/-- A row does not end in a dot. -/
def Forest.EndsOffDot (f : Forest) : Prop := ∀ t, f.tokens.getLast? = some t → t.kind ≠ .dot

theorem Forest.Settled.behind {f : Forest} {a b : List Token} (settled : f.Settled a)
    (same : f.EndsOffDot ∨ a.head? = b.head?) : f.Settled b := by
  induction f generalizing a b with
  | nil => trivial
  | leaf t rest ih =>
    refine ih settled (same.imp_left fun off u last => off u ?_)
    rw [tokens_leaf, List.getLast?_cons, last]
    rfl
  | node r below rest ihBelow ihRest =>
    obtain ⟨dot, settledBelow, settledRest⟩ := settled
    refine ⟨?_, ihBelow settledBelow ?_, ihRest settledRest ?_⟩
    · intro bare t head
      cases tokens : rest.tokens with
      | nil =>
        rw [tokens, List.nil_append] at dot head
        rcases same with off | same
        · obtain ⟨-, u, isDot, rfl⟩ := bare
          exact absurd isDot (off u (by simp [tokens]))
        · exact dot bare t (same.trans head)
      | cons u us =>
        rw [tokens] at dot head
        exact dot bare t head
    · cases tokens : rest.tokens with
      | nil =>
        refine same.imp_left fun off u last => off u ?_
        simp [tokens, last]
      | cons u us => exact .inr rfl
    · refine same.imp_left fun off u last => off u ?_
      simp [last]

/-- A settled row stays settled in front of anything but a member word. -/
theorem Forest.Settled.of_stops {f : Forest} {a b : List Token} (settled : f.Settled a)
    (stops : Stops Kind.isMemberWord b) : f.Settled b := by
  induction f generalizing a b with
  | nil => trivial
  | leaf t rest ih => exact ih settled stops
  | node r below rest ihBelow ihRest =>
    obtain ⟨dot, settledBelow, settledRest⟩ := settled
    refine ⟨?_, ?_, ihRest settledRest stops⟩
    · intro bare t head
      cases tokens : rest.tokens with
      | nil =>
        rw [tokens, List.nil_append] at head
        intro word
        have off : t.kind.isMemberWord = false := by simpa [Stops, head] using stops
        exact Bool.false_ne_true (off.symm.trans (mem_memberWords.mp word))
      | cons u us =>
        rw [tokens] at dot head
        exact dot bare t head
    · cases tokens : rest.tokens with
      | nil => exact ihBelow settledBelow stops
      | cons u us =>
        rw [tokens] at settledBelow
        exact settledBelow.behind (.inr rfl)

/-! ## Phrases without expressions -/

/-- No expression stands below a rule. -/
def Rule.isPlain : Rule → Bool
  | start | item | decl | memberBlock | structDecl | classDecl | enumDecl | actorDecl
  | protocolDecl | extensionDecl | varDecl | patternBinding | initializer | caseDecl | enumCase
  | casePayload | payloadElem | payloadDefault | rawValue | expr | exprAtom => false
  | _ => true

/-- No expression stands in an instance of a body. -/
def Body.isPlain : Body → Bool
  | word _ => true
  | part r => r.isPlain
  | seq a b | choice a b => a.isPlain && b.isPlain
  | optional a | many a => a.isPlain

theorem Rule.isPlain_body {r : Rule} (plain : r.isPlain = true) : r.body.isPlain = true := by
  cases r <;> first | rfl | cases plain

/-- Phrases without expressions are settled. -/
theorem Derives.settled {b : Body} {f : Forest} (h : Derives b f) (plain : b.isPlain = true)
    (behind : List Token) : f.Settled behind := by
  induction h generalizing behind with
  | word mem => trivial
  | @part r f below ih =>
    have ne : r ≠ .exprAtom := by
      rintro rfl
      cases plain
    exact (Forest.settled_under ne ..).mpr (ih (Rule.isPlain_body plain) behind)
  | seq first second ihFirst ihSecond =>
    have both := Bool.and_eq_true_iff.mp plain
    exact (Forest.settled_append ..).mpr ⟨ihFirst both.1 _, ihSecond both.2 _⟩
  | left only ih => exact ih (Bool.and_eq_true_iff.mp plain).1 behind
  | right only ih => exact ih (Bool.and_eq_true_iff.mp plain).2 behind
  | missing => trivial
  | present only ih => exact ih plain behind
  | none => trivial
  | more first others ihFirst ihOthers =>
    exact (Forest.settled_append ..).mpr ⟨ihFirst plain _, ihOthers plain _⟩

/-- Below the rule of a type declaration only the members count. -/
theorem Header.settled_forest (h : Header) {block : Forest} {behind : List Token}
    (settled : block.Settled behind) : (h.forest block).Settled behind := by
  cases h with
  | structured head keyword name generics inheritance requirements =>
    have parameters := Derives.option GenericClause.derives generics
    have supertypes := Derives.option Inheritance.derives inheritance
    have clause := Derives.option WhereClause.derives requirements
    simp only [forest, Forest.settled_append]
    exact ⟨head.derives.settled rfl _, trivial, trivial, parameters.settled rfl _,
      supertypes.settled rfl _, clause.settled rfl _, settled⟩
  | loose head keyword name atoms =>
    simp only [forest, Forest.settled_append]
    exact ⟨head.derives.settled rfl _, trivial, trivial,
      (derives_headerForest atoms).settled rfl _, settled⟩

/-! ## Several phrases -/

section
variable {α : Type} {yield : α → List Token} {tree : α → Forest} {as : List α}
  {behind : List Token}

/-- A row is settled if each of its trees is, in front of the others. -/
theorem settled_of_each (yields : ∀ a, (tree a).tokens = yield a)
    (each : Each yield (fun a ts => (tree a).Settled ts) as behind) :
    (Forest.concat (as.map tree)).Settled behind := by
  induction as with
  | nil => trivial
  | cons a as ih =>
    rw [List.map_cons, Forest.concat_cons, Forest.settled_append]
    refine ⟨?_, ih each.2⟩
    simpa [List.flatMap_map, yields] using each.1

theorem optionForest_settled {o : Option α} (each : ∀ a, o = some a → (tree a).Settled behind) :
    (optionForest tree o).Settled behind := by
  cases o with
  | none => trivial
  | some a => exact each a rfl

/-- Phrases between commas are settled if each is, where no member word follows. -/
theorem Listed.settled_forest {l : Listed α} (stops : Stops Kind.isMemberWord behind)
    (each : ∀ a ts, Stops Kind.isMemberWord ts → (tree a).Settled ts) :
    (l.forest tree).Settled behind := by
  have comma : ∀ ts, Starts (· == .comma) ts → Stops Kind.isMemberWord ts :=
    fun ts front => front.stops (by decide)
  have others : Each (fun (x : Tok .comma × α) => x.1.val :: (tree x.2).tokens)
      (fun x ts => (Forest.ofToken x.1.val ++ tree x.2).Settled ts) l.others behind := by
    have front (x : Tok .comma × α) (_ : x ∈ l.others) :
        Starts (· == .comma) (x.1.val :: (tree x.2).tokens) := x.1.property
    have fit : Each _ (fun _ ts => Stops Kind.isMemberWord ts) l.others behind :=
      each_of_front front comma stops
    refine fit.imp fun x _ ts stops => ?_
    exact (Forest.settled_append ..).mpr ⟨trivial, each x.2 ts stops⟩
  refine (Forest.settled_append ..).mpr ⟨each l.first _ ?_, settled_of_each (fun _ => rfl) others⟩
  cases l.others with
  | nil => exact stops
  | cons x xs => exact comma _ x.1.property

end

/-! ## Expressions -/

section
variable {behind : List Token}

theorem Expression.settled_forest (e : Expression) (stops : Stops Kind.isMemberWord behind) :
    e.forest.Settled behind := by
  have start : ∀ k, ExpressionAtom.starts k = true → k.isMemberWord = false := by decide
  have fit : Each ExpressionAtom.tokens (fun _ ts => Stops Kind.isMemberWord ts)
      (e.first :: e.others) behind :=
    each_of_front (fun a _ => a.starts_tokens) (fun ts front => front.stops start) stops
  have each : Each ExpressionAtom.tokens (fun a ts => a.tree.Settled ts) (e.first :: e.others)
      behind :=
    fit.imp fun a _ ts stops => (a.settled_tree ts).mpr fun _ => stops
  exact settled_of_each ExpressionAtom.tokens_tree each

theorem Initializer.settled_forest (i : Initializer) (stops : Stops Kind.isMemberWord behind) :
    i.forest.Settled behind := by
  refine (Forest.settled_append ..).mpr ⟨trivial, ?_⟩
  exact (Forest.settled_under (by decide) ..).mpr (i.value.settled_forest stops)

/-- The same below a rule of its own, where it may be missing. -/
theorem settled_initializerForest {r : Rule} (ne : r ≠ .exprAtom) (o : Option Initializer)
    (stops : Stops Kind.isMemberWord behind) : (initializerForest r o).Settled behind :=
  optionForest_settled fun i _ =>
    (Forest.settled_under ne ..).mpr (i.settled_forest stops)

/-! ## Properties -/

theorem Binding.settled_forest (b : Binding) (stops : Stops Kind.isMemberWord behind) :
    b.forest.Settled behind := by
  cases b with
  | plain pattern clause initializer observers =>
    have front := Derives.part (r := .bindingPattern) (PatternTree.derives pattern)
    have type := Derives.option (fun c : TypeClause => .part (r := .typeClause) c.derives) clause
    have block := Derives.option (fun g : Group .observer => .part (r := .observerBlock) g.derives)
      observers
    simp only [forest, Forest.settled_append]
    refine ⟨front.settled rfl _, type.settled rfl _, ?_, block.settled rfl _⟩
    refine settled_initializerForest (by decide) initializer ?_
    cases observers with
    | none => exact stops
    | some g =>
      simp [optionForest, Group.forest, g.opening.kind_eq, Bracket.opener, Kind.isMemberWord]
  | computed pattern clause accessors =>
    have whole : Derives (.all (.part .bindingPattern)
        [.optional (.part .typeClause), .part .accessorBlock])
        (computed pattern clause accessors).forest :=
      .seq (.part (PatternTree.derives pattern))
        (.seq (.option (fun c => .part c.derives) clause) (.part accessors.derives))
    exact whole.settled rfl behind

theorem Property.settled_forest (p : Property) (stops : Stops Kind.isMemberWord behind) :
    p.forest.Settled behind := by
  simp only [forest, Forest.settled_append]
  refine ⟨p.head.derives.settled rfl _, optionForest_settled fun _ _ => trivial, ?_, ?_⟩
  · exact (Forest.settled_under (by decide) ..).mpr trivial
  · refine Listed.settled_forest stops fun b ts stops => ?_
    exact (Forest.settled_under (by decide) ..).mpr (b.settled_forest stops)

/-! ## Cases -/

theorem SlotSyntax.settled_forest (s : SlotSyntax) (stops : Stops Kind.isMemberWord behind) :
    s.forest.Settled behind := by
  cases s with
  | labelled label colon type default =>
    simp only [forest, Forest.settled_append]
    refine ⟨(Forest.settled_under (by decide) ..).mpr trivial, trivial, ?_, ?_⟩
    · exact (TypeSyntax.derives type).settled rfl _
    · exact settled_initializerForest (by decide) default stops
  | positional type default =>
    simp only [forest, Forest.settled_append]
    refine ⟨(TypeSyntax.derives type).settled rfl _, ?_⟩
    exact settled_initializerForest (by decide) default stops

theorem PayloadSyntax.settled_forest (p : PayloadSyntax) : p.forest.Settled behind := by
  simp only [forest, Forest.settled_append]
  refine ⟨trivial, optionForest_settled fun l _ => ?_, trivial⟩
  refine Listed.settled_forest ?_ fun s ts stops => ?_
  · simp [p.closing.kind_eq, Kind.isMemberWord]
  · exact (Forest.settled_under (by decide) ..).mpr (s.settled_forest stops)

theorem CaseSyntax.settled_forest (c : CaseSyntax) (stops : Stops Kind.isMemberWord behind) :
    c.forest.Settled behind := by
  simp only [forest, Forest.settled_append]
  refine ⟨(Forest.settled_under (by decide) ..).mpr trivial, optionForest_settled fun p _ => ?_,
    settled_initializerForest (by decide) c.raw stops⟩
  exact (Forest.settled_under (by decide) ..).mpr p.settled_forest

theorem CaseGroup.settled_forest (c : CaseGroup) (stops : Stops Kind.isMemberWord behind) :
    c.forest.Settled behind := by
  simp only [forest, Forest.settled_append]
  refine ⟨c.head.derives.settled rfl _, trivial, Listed.settled_forest stops fun s ts stops => ?_⟩
  exact (Forest.settled_under (by decide) ..).mpr (s.settled_forest stops)

end

/-! ## Leaves -/

/-- A leaf is settled where no member word follows. -/
theorem Leaf.settled_forest (l : Leaf) {behind : List Token}
    (stops : Stops Kind.isMemberWord behind) : l.forest.Settled behind := by
  cases l with
  | property p => exact p.settled_forest stops
  | cases c => exact c.settled_forest stops
  | directive line => trivial
  | function head classWord keyword name signature body =>
    exact (derives_below (function head classWord keyword name signature body)).settled rfl behind
  | constructor head keyword signature body =>
    exact (derives_below (constructor head keyword signature body)).settled rfl behind
  | destructor head keyword body =>
    exact (derives_below (destructor head keyword body)).settled rfl behind
  | subscript head keyword signature body =>
    exact (derives_below (subscript head keyword signature body)).settled rfl behind
  | typeAlias head keyword name signature =>
    exact (derives_below (typeAlias head keyword name signature)).settled rfl behind
  | importing head keyword what name path =>
    exact (derives_below (importing head keyword what name path)).settled rfl behind

/-- A leaf that does not end in a dot is settled wherever it stands. -/
theorem Leaf.settled_of_endsOffDot {l : Leaf} (off : l.forest.EndsOffDot)
    (behind : List Token) : l.forest.Settled behind :=
  (l.settled_forest stops_nil).behind (.inl off)

/-! ## Rows -/

/-- The declaration at the front of a row is settled in front of the others. -/
theorem Forest.settled_declaration {r : Rule} (ne : r ≠ .exprAtom) {below rest : Forest}
    {behind : List Token} : (node .item (under .decl (under r below)) rest).Settled behind ↔
      below.Settled (rest.tokens ++ behind) ∧ rest.Settled behind := by
  have decl : Rule.decl ≠ .exprAtom := by decide
  simp [Settled, IsBareDot, settled_under decl, settled_under ne]

namespace Items

variable {behind : List Token}

theorem settled_semicolon_iff {mark : Tok .semicolon} {rest : Items} :
    (semicolon mark rest).forest.Settled behind ↔ rest.forest.Settled behind := by
  simp [forest, Forest.Settled, Forest.IsBareDot]

theorem settled_leaf_iff {l : Leaf} {rest : Items} : (leaf l rest).forest.Settled behind ↔
    l.forest.Settled (rest.tokens ++ behind) ∧ rest.forest.Settled behind := by
  rw [forest, Forest.settled_declaration l.rule_ne_exprAtom, tokens_forest]

/-- A type is settled if its members are. -/
theorem settled_nominal_iff {header : Header} {opening : Tok .leftBrace} {members : Items}
    {closing : Tok .rightBrace} {rest : Items} :
    (nominal header opening members closing rest).forest.Settled behind ↔
      members.forest.Settled (closing.val :: (rest.tokens ++ behind)) ∧
        rest.forest.Settled behind := by
  have block : Rule.memberBlock ≠ .exprAtom := by decide
  rw [forest, Forest.settled_declaration (nominalRule_ne_exprAtom _), tokens_forest]
  refine and_congr_left fun _ => ⟨fun settled => ?_, fun settled => header.settled_forest ?_⟩
  · have below := (Forest.settled_under block ..).mp (Header.settled_block settled)
    simpa [Forest.settled_append] using below
  · simpa [Forest.settled_under block, Forest.settled_append] using settled

end Items

end Conformance.Grammar
