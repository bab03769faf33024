import Conformance.Proofs.Grammar.Completeness

/-!
# Every type is read

The parser of types comes to every type that is written, part by part.  Each part
has a class of kinds that would go on with it, `TypePart.goesOn`; what is behind
the part must not start with one of them.  Each level of the tree takes a unit of
fuel, and `TypePart.rank` counts the levels above the next token.
-/

namespace Conformance.Grammar

namespace TypePart

/-- The kinds that go on with a part of a type. -/
def goesOn : TypePart → Kind → Bool
  | identifier, k => k == .leftAngle
  | path, k => k == .leftAngle || k == .dot
  | primary, k => k == .leftAngle || k == .dot || TypeTree.startsPrimary k
  | unit, k => k == .leftAngle || k == .dot || TypeTree.startsPrimary k || k.isPostfix
  | conjuncts, k =>
    k == .leftAngle || k == .dot || TypeTree.startsPrimary k || k.isPostfix || k == .ampersand
  | whole, k =>
    k == .leftAngle || k == .dot || TypeTree.startsPrimary k || k.isPostfix || k == .ampersand ||
      TypeTree.startsArrow k
  | arguments, k =>
    k == .leftAngle || k == .dot || TypeTree.startsPrimary k || k.isPostfix || k == .ampersand ||
      TypeTree.startsArrow k || k == .comma
  | element, k => !(k == .comma || k == .rightParen)
  | elements, k | moreElements, k => k != .rightParen

/-- The levels of a part above its first token. -/
def rank : TypePart → Nat
  | identifier | conjuncts | path | arguments | moreElements => 1
  | primary => 2
  | unit => 3
  | whole => 4
  | element => 5
  | elements => 6

/-- A part may end in front of what is behind it.  The elements of a tuple end at its
parenthesis, which they look for. -/
def EndsAt (p : TypePart) (behind : List Token) : Prop :=
  Stops p.goesOn behind ∧ (p = .elements → behind ≠ [])

theorem EndsAt.mono {p q : TypePart} {ts : List Token} (h : p.EndsAt ts)
    (sub : ∀ k, q.goesOn k = true → p.goesOn k = true) (hq : q ≠ .elements) : q.EndsAt ts :=
  ⟨h.1.mono sub, fun eq => absurd eq hq⟩

end TypePart

namespace TypeTree

/-- A part is read wherever it may end, with fuel for all its levels. -/
def IsRead {p : TypePart} (t : TypeTree p) : Prop :=
  ∀ fuel behind, 8 * t.tokens.length + p.rank ≤ fuel → p.EndsAt behind →
    Reads (parse fuel p) tokens t behind

theorem IsRead.intro {p : TypePart} {t : TypeTree p}
    (h : ∀ fuel behind, 8 * t.tokens.length + p.rank ≤ fuel + 1 → p.EndsAt behind →
      parse (fuel + 1) p (t.tokens ++ behind) = .done t behind) : t.IsRead := by
  intro fuel behind enough ends
  have pos : 0 < p.rank := by cases p <;> decide
  obtain ⟨fuel, rfl⟩ : ∃ n, fuel = n + 1 := ⟨fuel - 1, by omega⟩
  exact h fuel behind enough ends

/-! ## Whole types -/

theorem isRead_attributed (sign : Tok .atSign) (name : Tok .name) {type : TypeTree .whole}
    (ih : type.IsRead) : (attributed sign name type).IsRead := by
  refine .intro fun fuel behind enough ends => ?_
  simp only [tokens, List.length_cons, TypePart.rank] at enough
  have inner := ih fuel behind (by simp only [TypePart.rank]; omega) ends
  simp only [parse, tokens, List.cons_append, Parser.peek_bind, List.head?_cons, Option.map_some,
    sign.kind_eq]
  rw [if_pos (by decide), Parser.bind_done (Parser.token_cons sign _),
    Parser.bind_done (Parser.token_cons name _), Parser.bind_done inner]
  rfl

theorem starts_primary (t : TypeTree .primary) : Starts startsPrimary t.tokens := by
  cases t with
  | named first path =>
    cases first <;> simp [tokens, Word.kind_eq, startsPrimary]
  | _ => simp [tokens, Word.kind_eq, startsPrimary]

theorem starts_unit (t : TypeTree .unit) : Starts startsPrimary t.tokens := by
  cases t with
  | marked primary marks => exact primary.starts_primary.append _

theorem ends_unit (more : TypeTree .conjuncts) {behind : List Token}
    (ends : TypePart.conjuncts.EndsAt behind) : TypePart.unit.EndsAt (more.tokens ++ behind) := by
  cases more with
  | noConjunct =>
    exact ends.mono (by decide) (by decide)
  | conjunct sign unit more =>
    simp [TypePart.EndsAt, tokens, sign.kind_eq]
    decide

theorem stops_arrow (more : TypeTree .conjuncts) {behind : List Token}
    (ends : TypePart.whole.EndsAt behind) : Stops startsArrow (more.tokens ++ behind) := by
  cases more with
  | noConjunct => exact ends.1.mono (by decide)
  | conjunct sign unit more =>
    simp [tokens, sign.kind_eq]
    decide

theorem ends_conjuncts {behind : List Token} (ends : TypePart.whole.EndsAt behind) :
    TypePart.conjuncts.EndsAt behind :=
  ends.mono (by decide) (by decide)

theorem isRead_composed {unit : TypeTree .unit} {more : TypeTree .conjuncts}
    (ihUnit : unit.IsRead) (ihMore : more.IsRead) : (composed unit more).IsRead := by
  refine .intro fun fuel behind enough ends => ?_
  have front := unit.starts_unit
  have some := front.length_pos
  simp only [tokens, List.length_append, TypePart.rank] at enough
  have endsMore := ends_conjuncts ends
  have noArrow := more.stops_arrow ends
  have first := ihUnit fuel _ (by simp only [TypePart.rank]; omega) (more.ends_unit endsMore)
  have others := ihMore fuel behind (by simp only [TypePart.rank]; omega) endsMore
  have noSign := (front.append (more.tokens ++ behind)).peek_ne (k := .atSign) (by decide)
  simp only [parse, tokens, List.append_assoc, Parser.peek_bind]
  rw [if_neg noSign, Parser.bind_done first, Parser.peek_bind, if_neg noArrow.any,
    Parser.bind_done others]
  rfl

theorem starts_effects (effects : List (Word Kind.isEffect)) (arrow : Tok .arrow)
    (ts : List Token) : Starts startsArrow (effects.map Subtype.val ++ arrow.val :: ts) := by
  cases effects with
  | nil => simp [arrow.kind_eq, startsArrow]
  | cons w ws => simp [startsArrow, w.property]

theorem ends_effects (effects : List (Word Kind.isEffect)) (arrow : Tok .arrow)
    (ts : List Token) : TypePart.unit.EndsAt (effects.map Subtype.val ++ arrow.val :: ts) :=
  ⟨(starts_effects effects arrow ts).stops (by decide), fun eq => absurd eq (by decide)⟩

theorem isRead_function {unit : TypeTree .unit} (effects : List (Word Kind.isEffect))
    (arrow : Tok .arrow) {result : TypeTree .whole} (ihUnit : unit.IsRead)
    (ihResult : result.IsRead) : (function unit effects arrow result).IsRead := by
  refine .intro fun fuel behind enough ends => ?_
  have front := unit.starts_unit
  simp only [tokens, List.length_append, List.length_map, List.length_cons, TypePart.rank]
    at enough
  have isArrow := starts_effects effects arrow (result.tokens ++ behind)
  have first := ihUnit fuel _ (by simp only [TypePart.rank]; omega)
    (ends_effects effects arrow (result.tokens ++ behind))
  have marks : Reads (Parser.many Kind.isEffect (Parser.word Kind.isEffect) fuel)
      (List.map Subtype.val) effects (arrow.val :: (result.tokens ++ behind)) :=
    .words (by omega) (by simp [arrow.kind_eq]; rfl)
  have last := ihResult fuel behind (by simp only [TypePart.rank]; omega) ends
  have noSign := (front.append (effects.map Subtype.val ++ arrow.val :: (result.tokens ++
    behind))).peek_ne (k := .atSign) (by decide)
  simp only [parse, tokens, List.append_assoc, List.cons_append, Parser.peek_bind]
  rw [if_neg noSign, Parser.bind_done first, Parser.peek_bind, if_pos isArrow.any,
    Parser.bind_done marks, Parser.bind_done (Parser.token_cons arrow _), Parser.bind_done last]
  rfl

theorem isRead_noConjunct : noConjunct.IsRead := by
  refine .intro fun fuel behind _ ends => ?_
  simp only [parse, tokens, List.nil_append, Parser.peek_bind]
  rw [if_neg (ends.1.peek_ne (by decide))]
  rfl

theorem isRead_conjunct (sign : Tok .ampersand) {unit : TypeTree .unit}
    {more : TypeTree .conjuncts} (ihUnit : unit.IsRead) (ihMore : more.IsRead) :
    (conjunct sign unit more).IsRead := by
  refine .intro fun fuel behind enough ends => ?_
  simp only [tokens, List.cons_append, List.length_cons, List.length_append, TypePart.rank]
    at enough
  have first := ihUnit fuel _ (by simp only [TypePart.rank]; omega) (more.ends_unit ends)
  have others := ihMore fuel behind (by simp only [TypePart.rank]; omega) ends
  simp only [parse, tokens, List.cons_append, List.append_assoc, Parser.peek_bind,
    List.head?_cons, Option.map_some, sign.kind_eq]
  rw [if_pos (by decide), Parser.bind_done (Parser.token_cons sign _), Parser.bind_done first,
    Parser.bind_done others]
  rfl

/-! ## Units and primary types -/

theorem ends_primary (marks : List (Word Kind.isPostfix)) {behind : List Token}
    (ends : TypePart.unit.EndsAt behind) :
    TypePart.primary.EndsAt (marks.map Subtype.val ++ behind) := by
  cases marks with
  | nil =>
    exact ends.mono (by decide) (by decide)
  | cons w ws =>
    exact ⟨Starts.stops (p := Kind.isPostfix) w.property (by decide),
      fun eq => absurd eq (by decide)⟩

theorem isRead_marked {primary : TypeTree .primary} (marks : List (Word Kind.isPostfix))
    (ih : primary.IsRead) : (marked primary marks).IsRead := by
  refine .intro fun fuel behind enough ends => ?_
  simp only [tokens, List.length_append, List.length_map, TypePart.rank] at enough
  have first := ih fuel _ (by simp only [TypePart.rank]; omega) (ends_primary marks ends)
  have others : Reads (Parser.many Kind.isPostfix (Parser.word Kind.isPostfix) fuel)
      (List.map Subtype.val) marks behind :=
    .words (by omega) (ends.1.mono (by decide))
  simp only [parse, tokens, List.append_assoc]
  rw [Parser.bind_done first, Parser.bind_done others]
  rfl

/-- The token behind the first name of a path starts no primary type. -/
theorem stops_second (first : TypeTree .identifier) (path : TypeTree .path) {behind : List Token}
    (ends : TypePart.primary.EndsAt behind) :
    Stops startsPrimary (first.tokens ++ (path.tokens ++ behind)).tail := by
  cases first with
  | plain name =>
    cases path with
    | pathEnd =>
      exact ends.1.mono (by decide)
    | member dot identifier path =>
      simp [tokens, dot.kind_eq, startsPrimary]
  | generic name opening first others closing => simp [tokens, opening.kind_eq, startsPrimary]

theorem front_identifier (t : TypeTree .identifier) : Starts (· == .name) t.tokens := by
  cases t <;> simp [tokens, Word.kind_eq]

theorem ends_identifier (path : TypeTree .path) {behind : List Token}
    (ends : TypePart.path.EndsAt behind) :
    TypePart.identifier.EndsAt (path.tokens ++ behind) := by
  cases path with
  | pathEnd =>
    exact ends.mono (by decide) (by decide)
  | member dot identifier path =>
    simp [TypePart.EndsAt, tokens, dot.kind_eq]
    decide

/-- A primary type that starts with a name is read by the parser for such types. -/
theorem parse_primary_of_name {fuel : Nat} {ts : List Token} (front : Starts (· == .name) ts) :
    parse (fuel + 1) .primary ts =
      parseNamed (parse fuel .primary) (parse fuel .identifier) (parse fuel .path) ts := by
  cases ts with
  | nil => cases front
  | cons t ts =>
    have name : t.kind = .name := by simpa using front
    simp only [parse, Parser.peek_bind, List.head?_cons, Option.map_some, name]

theorem isRead_named {first : TypeTree .identifier} {path : TypeTree .path}
    (ihFirst : first.IsRead) (ihPath : path.IsRead) : (named first path).IsRead := by
  refine .intro fun fuel behind enough ends => ?_
  have front := first.front_identifier
  have some := front.length_pos
  simp only [tokens, List.length_append, TypePart.rank] at enough
  have endsPath : TypePart.path.EndsAt behind :=
    ends.mono (by decide) (by decide)
  have here := ihFirst fuel _ (by simp only [TypePart.rank]; omega) (path.ends_identifier endsPath)
  have others := ihPath fuel behind (by simp only [TypePart.rank]; omega) endsPath
  simp only [tokens, List.append_assoc]
  rw [parse_primary_of_name (front.append _), parseNamed, Parser.peekSecond_bind,
    if_neg (stops_second first path ends).any, Parser.bind_done here, Parser.bind_done others]
  rfl

theorem isRead_prefixed (word : Tok .name) {primary : TypeTree .primary} (ih : primary.IsRead) :
    (prefixed word primary).IsRead := by
  refine .intro fun fuel behind enough ends => ?_
  simp only [tokens, List.length_cons, TypePart.rank] at enough
  have inner := ih fuel behind (by simp only [TypePart.rank]; omega) ends
  have second := (primary.starts_primary.append behind).any
  simp only [tokens, List.cons_append]
  rw [parse_primary_of_name (starts_cons.mpr word.property), parseNamed,
    Parser.peekSecond_bind, List.tail_cons,
    if_pos second, Parser.bind_done (Parser.token_cons word _), Parser.bind_done inner]
  rfl

theorem ends_of_kind {p : TypePart} {k : Kind} (w : Tok k) (ts : List Token)
    (h : p.goesOn k = false) : p.EndsAt (w.val :: ts) :=
  ⟨by simpa [w.kind_eq] using h, fun _ => by simp⟩

theorem isRead_array (opening : Tok .leftSquare) {element : TypeTree .whole}
    (closing : Tok .rightSquare) (ih : element.IsRead) :
    (array opening element closing).IsRead := by
  refine .intro fun fuel behind enough _ => ?_
  simp only [tokens, List.cons_append, List.length_cons, List.length_append, TypePart.rank]
    at enough
  have inner := ih fuel (closing.val :: behind) (by simp only [TypePart.rank]; omega)
    (ends_of_kind closing _ (by decide))
  simp only [parse, tokens, List.cons_append, List.append_assoc, List.nil_append,
    Parser.peek_bind, List.head?_cons, Option.map_some, opening.kind_eq, parseSquare]
  rw [Parser.bind_done (Parser.token_cons opening _), Parser.bind_done inner]
  simp only [Parser.peek_bind, List.head?_cons, Option.map_some, closing.kind_eq]
  rw [if_neg (by decide), Parser.bind_done (Parser.token_cons closing _)]
  rfl

theorem isRead_dictionary (opening : Tok .leftSquare) {key : TypeTree .whole}
    (colon : Tok .colon) {value : TypeTree .whole} (closing : Tok .rightSquare)
    (ihKey : key.IsRead) (ihValue : value.IsRead) :
    (dictionary opening key colon value closing).IsRead := by
  refine .intro fun fuel behind enough _ => ?_
  simp only [tokens, List.cons_append, List.length_cons, List.length_append, TypePart.rank]
    at enough
  have first := ihKey fuel (colon.val :: (value.tokens ++ closing.val :: behind))
    (by simp only [TypePart.rank]; omega) (ends_of_kind colon _ (by decide))
  have second := ihValue fuel (closing.val :: behind) (by simp only [TypePart.rank]; omega)
    (ends_of_kind closing _ (by decide))
  simp only [parse, tokens, List.cons_append, List.append_assoc, List.nil_append,
    Parser.peek_bind, List.head?_cons, Option.map_some, opening.kind_eq, parseSquare]
  rw [Parser.bind_done (Parser.token_cons opening _), Parser.bind_done first]
  simp only [Parser.peek_bind, List.head?_cons, Option.map_some, colon.kind_eq]
  rw [if_pos (by decide), Parser.bind_done (Parser.token_cons colon _), Parser.bind_done second,
    Parser.bind_done (Parser.token_cons closing _)]
  rfl

theorem isRead_tuple (opening : Tok .leftParen) {elements : TypeTree .elements}
    (closing : Tok .rightParen) (ih : elements.IsRead) :
    (tuple opening elements closing).IsRead := by
  refine .intro fun fuel behind enough _ => ?_
  simp only [tokens, List.cons_append, List.length_cons, List.length_append, TypePart.rank]
    at enough
  have inner := ih fuel (closing.val :: behind) (by simp only [TypePart.rank]; omega)
    (ends_of_kind closing _ (by decide))
  simp only [parse, tokens, List.cons_append, List.append_assoc, List.nil_append,
    Parser.peek_bind, List.head?_cons, Option.map_some, opening.kind_eq, parseTuple]
  rw [Parser.bind_done (Parser.token_cons opening _), Parser.bind_done inner,
    Parser.bind_done (Parser.token_cons closing _)]
  rfl

/-! ## Paths and generic arguments -/

theorem isRead_pathEnd : pathEnd.IsRead := by
  refine .intro fun fuel behind _ ends => ?_
  simp only [parse, tokens, List.nil_append, Parser.peek_bind]
  rw [if_neg (ends.1.peek_ne (by decide))]
  rfl

theorem isRead_member (dot : Tok .dot) {identifier : TypeTree .identifier}
    {path : TypeTree .path} (ihIdentifier : identifier.IsRead) (ihPath : path.IsRead) :
    (member dot identifier path).IsRead := by
  refine .intro fun fuel behind enough ends => ?_
  simp only [tokens, List.cons_append, List.length_cons, List.length_append, TypePart.rank]
    at enough
  have first := ihIdentifier fuel _ (by simp only [TypePart.rank]; omega)
    (path.ends_identifier ends)
  have others := ihPath fuel behind (by simp only [TypePart.rank]; omega) ends
  simp only [parse, tokens, List.cons_append, List.append_assoc, Parser.peek_bind,
    List.head?_cons, Option.map_some, dot.kind_eq]
  rw [if_pos (by decide), Parser.bind_done (Parser.token_cons dot _), Parser.bind_done first,
    Parser.bind_done others]
  rfl

theorem isRead_plain (name : Tok .name) : (plain name).IsRead := by
  refine .intro fun fuel behind _ ends => ?_
  simp only [parse, tokens, List.cons_append, List.nil_append]
  rw [Parser.bind_done (Parser.token_cons name _), Parser.peek_bind,
    if_neg (ends.1.peek_ne (by decide))]
  rfl

/-- A generic argument ends at the comma of the next one or where all end. -/
theorem ends_whole (others : TypeTree .arguments) {behind : List Token}
    (ends : TypePart.arguments.EndsAt behind) :
    TypePart.whole.EndsAt (others.tokens ++ behind) := by
  cases others with
  | noArgument =>
    exact ends.mono (by decide) (by decide)
  | argument comma type others => exact ends_of_kind comma _ (by decide)

theorem isRead_generic (name : Tok .name) (opening : Tok .leftAngle) {first : TypeTree .whole}
    {others : TypeTree .arguments} (closing : Tok .rightAngle) (ihFirst : first.IsRead)
    (ihOthers : others.IsRead) : (generic name opening first others closing).IsRead := by
  refine .intro fun fuel behind enough _ => ?_
  simp only [tokens, List.cons_append, List.length_cons, List.length_append, TypePart.rank]
    at enough
  have ends : TypePart.arguments.EndsAt (closing.val :: behind) :=
    ends_of_kind closing _ (by decide)
  have here := ihFirst fuel _ (by simp only [TypePart.rank]; omega) (others.ends_whole ends)
  have rest := ihOthers fuel _ (by simp only [TypePart.rank]; omega) ends
  simp only [parse, tokens, List.cons_append, List.append_assoc, List.nil_append]
  rw [Parser.bind_done (Parser.token_cons name _), Parser.peek_bind,
    if_pos (by simp [opening.kind_eq]), Parser.bind_done (Parser.token_cons opening _),
    Parser.bind_done here, Parser.bind_done rest, Parser.bind_done (Parser.token_cons closing _)]
  rfl

theorem isRead_noArgument : noArgument.IsRead := by
  refine .intro fun fuel behind _ ends => ?_
  simp only [parse, tokens, List.nil_append, Parser.peek_bind]
  rw [if_neg (ends.1.peek_ne (by decide))]
  rfl

theorem isRead_argument (comma : Tok .comma) {type : TypeTree .whole}
    {others : TypeTree .arguments} (ihType : type.IsRead) (ihOthers : others.IsRead) :
    (argument comma type others).IsRead := by
  refine .intro fun fuel behind enough ends => ?_
  simp only [tokens, List.cons_append, List.length_cons, List.length_append, TypePart.rank]
    at enough
  have first := ihType fuel _ (by simp only [TypePart.rank]; omega) (others.ends_whole ends)
  have rest := ihOthers fuel behind (by simp only [TypePart.rank]; omega) ends
  simp only [parse, tokens, List.cons_append, List.append_assoc, Parser.peek_bind,
    List.head?_cons, Option.map_some, comma.kind_eq]
  rw [if_pos (by decide), Parser.bind_done (Parser.token_cons comma _), Parser.bind_done first,
    Parser.bind_done rest]
  rfl

/-! ## Elements of tuples -/

/-- What makes a label of the name in front of it. -/
def labels (k : Kind) : Bool := k == .colon || k.isSoftName

/-- Tokens whose first is not the label of what follows: no reserved word, and if it is a name,
then neither it nor a name behind it has a colon behind. -/
structure NoLabel (t : Token) (ts : List Token) : Prop where
  front : t.kind.isSoftName = false
  second : t.kind = .name → Stops labels ts
  third : t.kind = .name → Starts (· == .name) ts → Stops labels ts.tail

theorem form_of_noLabel {t : Token} {ts : List Token} (h : NoLabel t ts) :
    elementForm (some t.kind) (ts.head?.map Token.kind) (ts.tail.head?.map Token.kind) =
      .unlabelled := by
  obtain ⟨front, second, third⟩ := h
  by_cases name : t.kind = .name
  · have noColon := (second name).peek_ne (k := .colon) (by decide)
    have noSoft := ((second name).mono (q := Kind.isSoftName) fun k h => by simp [labels, h]).any
    unfold elementForm
    rw [Option.any_some, front, if_neg (by decide), name, if_pos (by decide), if_neg noColon,
      if_neg noSoft]
    by_cases next : Starts (· == .name) ts
    · have last := (third name next).peek_ne (k := .colon) (by decide)
      rw [if_neg (by simp only [Bool.and_eq_true, not_and]; exact fun _ => last)]
    · have other : ¬((ts.head?.map Token.kind == some .name) = true) := by
        cases ts with
        | nil => decide
        | cons u us => simpa using next
      rw [if_neg (by simp only [Bool.and_eq_true, not_and]; exact fun h => absurd h other)]
  · unfold elementForm
    rw [Option.any_some, front, if_neg (by decide), if_neg (by simpa using name)]

theorem stops_behind_name (t : TypeTree .primary) {behind : List Token}
    (ends : Stops labels behind) (front : Starts (· == .name) t.tokens) :
    Stops labels (t.tokens ++ behind).tail := by
  cases t with
  | named first path =>
    cases first with
    | plain name =>
      cases path with
      | pathEnd => exact ends
      | member dot identifier path =>
        simp [tokens, dot.kind_eq]
        decide
    | generic name opening first others closing =>
      simp [tokens, opening.kind_eq]
      decide
  | prefixed word primary =>
    exact (primary.starts_primary.append behind).stops (by decide)
  | array opening => simp [tokens, opening.kind_eq] at front
  | dictionary opening => simp [tokens, opening.kind_eq] at front
  | tuple opening => simp [tokens, opening.kind_eq] at front

theorem noLabel_of_kind {t : Token} {ts : List Token} (soft : t.kind.isSoftName = false)
    (name : t.kind ≠ .name) : NoLabel t ts :=
  ⟨soft, fun h => absurd h name, fun h => absurd h name⟩

theorem noLabel_primary (t : TypeTree .primary) {behind : List Token}
    (ends : TypePart.primary.EndsAt behind) (stop : Stops labels behind) :
    ∃ u us, t.tokens ++ behind = u :: us ∧ NoLabel u us := by
  cases t with
  | named first path =>
    have front : Starts (· == .name) (named first path).tokens :=
      first.front_identifier.append _
    have second := stops_behind_name _ stop front
    have noName := stops_second first path ends
    simp only [tokens, List.append_assoc] at second ⊢
    obtain ⟨name, us, eq⟩ : ∃ (name : Tok .name) (us : List Token), first.tokens = name.val :: us := by
      cases first with
      | plain name => exact ⟨name, _, rfl⟩
      | generic name => exact ⟨name, _, rfl⟩
    rw [eq, List.cons_append, List.tail_cons] at second noName
    refine ⟨name.val, us ++ (path.tokens ++ behind), by simp [eq], ?_, fun _ => second, ?_⟩
    · simp [name.kind_eq, Kind.isSoftName]
    · intro _ next
      have other : Stops (· == .name) (us ++ (path.tokens ++ behind)) :=
        noName.mono fun k h => by simp_all [startsPrimary]
      rw [Stops, next.any] at other
      cases other
  | prefixed word primary =>
    have second := stops_behind_name (prefixed word primary) stop (starts_cons.mpr word.property)
    refine ⟨word.val, primary.tokens ++ behind, by simp [tokens], ?_, fun _ => second, ?_⟩
    · simp [word.kind_eq, Kind.isSoftName]
    · intro _ next
      refine stops_behind_name primary stop ?_
      have front := primary.starts_primary
      cases eq : primary.tokens with
      | nil => simp [eq, Starts] at front
      | cons u us => simpa [eq] using next
  | array opening element closing =>
    exact ⟨opening.val, _, by simp [tokens]; rfl,
      noLabel_of_kind (by simp [opening.kind_eq]; rfl) (by simp [opening.kind_eq])⟩
  | dictionary opening key colon value closing =>
    exact ⟨opening.val, _, by simp [tokens]; rfl,
      noLabel_of_kind (by simp [opening.kind_eq]; rfl) (by simp [opening.kind_eq])⟩
  | tuple opening elements closing =>
    exact ⟨opening.val, _, by simp [tokens]; rfl,
      noLabel_of_kind (by simp [opening.kind_eq]; rfl) (by simp [opening.kind_eq])⟩

theorem noLabel_unit (t : TypeTree .unit) {behind : List Token}
    (ends : TypePart.unit.EndsAt behind) (stop : Stops labels behind) :
    ∃ u us, t.tokens ++ behind = u :: us ∧ NoLabel u us := by
  cases t with
  | marked primary marks =>
    simp only [tokens, List.append_assoc]
    refine noLabel_primary primary (ends_primary marks ends) ?_
    cases marks with
    | nil => exact stop
    | cons w ws =>
      exact Starts.stops (p := Kind.isPostfix) w.property (by decide)

/-- A type is not taken for a labelled one. -/
theorem noLabel_whole (t : TypeTree .whole) {behind : List Token}
    (ends : TypePart.whole.EndsAt behind) (stop : Stops labels behind) :
    ∃ u us, t.tokens ++ behind = u :: us ∧ NoLabel u us := by
  cases t with
  | attributed sign name type =>
    exact ⟨sign.val, _, by simp [tokens]; rfl,
      noLabel_of_kind (by simp [sign.kind_eq]; rfl) (by simp [sign.kind_eq])⟩
  | composed unit more =>
    simp only [tokens, List.append_assoc]
    refine noLabel_unit unit (more.ends_unit (ends_conjuncts ends)) ?_
    cases more with
    | noConjunct => exact stop
    | conjunct sign unit more =>
      simp [tokens, sign.kind_eq]
      decide
  | function unit effects arrow result =>
    simp only [tokens, List.append_assoc, List.cons_append]
    have front := starts_effects effects arrow (result.tokens ++ behind)
    exact noLabel_unit unit (ends_effects effects arrow _) (front.stops (by decide))

theorem getElem?_two {t : Token} {ts : List Token} : (t :: ts)[2]? = ts.tail.head? := by
  cases ts <;> simp [List.head?_eq_getElem?]

/-- An element's type ends where the element does. -/
theorem ends_element {behind : List Token} (ends : TypePart.element.EndsAt behind) :
    TypePart.whole.EndsAt behind :=
  ends.mono (by decide) (by decide)

theorem isRead_unlabelled {type : TypeTree .whole} (ih : type.IsRead) :
    (unlabelled type).IsRead := by
  refine .intro fun fuel behind enough ends => ?_
  have endsWhole := ends_element ends
  have stop : Stops labels behind := ends.1.mono (by decide)
  obtain ⟨u, us, eq, noLabel⟩ := type.noLabel_whole endsWhole stop
  simp only [tokens, TypePart.rank] at enough
  have inner := ih fuel behind (by simp only [TypePart.rank]; omega) endsWhole
  simp only [parse, tokens, Parser.peek_bind, Parser.peekSecond_bind, peekThird_bind]
  rw [Reads, eq] at inner
  rw [eq, List.head?_cons, Option.map_some, List.tail_cons, getElem?_two,
    form_of_noLabel noLabel]
  exact Parser.map_done inner _

theorem isRead_labelled (label : Word Kind.isIdentifier) (colon : Tok .colon)
    {type : TypeTree .whole} (ih : type.IsRead) : (labelled label colon type).IsRead := by
  refine .intro fun fuel behind enough ends => ?_
  simp only [tokens, List.length_cons, TypePart.rank] at enough
  have inner := ih fuel behind (by simp only [TypePart.rank]; omega) (ends_element ends)
  have form : elementForm (some label.val.kind) (some colon.val.kind)
      (((type.tokens ++ behind).head?).map Token.kind) = .labelled := by
    have h := label.property
    simp only [Kind.isIdentifier, Bool.or_eq_true, beq_iff_eq] at h
    rcases h with name | soft
    · simp [elementForm, name, colon.kind_eq]
    · simp [elementForm, soft]
  simp only [parse, tokens, List.cons_append, Parser.peek_bind, Parser.peekSecond_bind,
    peekThird_bind, List.head?_cons, List.tail_cons, Option.map_some, getElem?_two, form]
  rw [Parser.bind_done (Parser.word_cons label _), Parser.bind_done (Parser.token_cons colon _),
    Parser.bind_done inner]
  rfl

theorem isRead_relabelled (outer : Tok .name) (inner : Word Kind.isIdentifier)
    (colon : Tok .colon) {type : TypeTree .whole} (ih : type.IsRead) :
    (relabelled outer inner colon type).IsRead := by
  refine .intro fun fuel behind enough ends => ?_
  simp only [tokens, List.length_cons, TypePart.rank] at enough
  have last := ih fuel behind (by simp only [TypePart.rank]; omega) (ends_element ends)
  have form : elementForm (some outer.val.kind) (some inner.val.kind) (some colon.val.kind) =
      .relabelled := by
    have h := inner.property
    simp only [Kind.isIdentifier, Bool.or_eq_true, beq_iff_eq] at h
    rcases h with name | soft
    · simp [elementForm, outer.kind_eq, name, colon.kind_eq, Kind.isSoftName]
    · have noColon : inner.val.kind ≠ .colon := by
        intro eq
        simp [eq, Kind.isSoftName] at soft
      simp [elementForm, outer.kind_eq, soft, noColon]
      decide
  simp only [parse, tokens, List.cons_append, Parser.peek_bind, Parser.peekSecond_bind,
    peekThird_bind, List.head?_cons, List.tail_cons, Option.map_some, getElem?_two, form]
  rw [Parser.bind_done (Parser.token_cons outer _), Parser.bind_done (Parser.word_cons inner _),
    Parser.bind_done (Parser.token_cons colon _), Parser.bind_done last]
  rfl

theorem isRead_noElement : noElement.IsRead := by
  refine .intro fun fuel behind _ ends => ?_
  have closing : (behind.head?.map Token.kind == some .rightParen) = true := by
    cases behind with
    | nil => exact absurd rfl (ends.2 rfl)
    | cons t ts => simpa [TypePart.goesOn] using stops_cons.mp ends.1
  simp only [parse, tokens, List.nil_append, Parser.peek_bind]
  rw [if_pos closing]
  rfl

theorem starts_whole (t : TypeTree .whole) : Starts (· != .rightParen) t.tokens := by
  have apart (unit : TypeTree .unit) : Starts (· != .rightParen) unit.tokens :=
    unit.starts_unit.mono (by decide)
  cases t with
  | attributed sign => simp [tokens, sign.kind_eq]
  | composed unit more => exact (apart unit).append _
  | function unit effects arrow result => exact ((apart unit).append _).append _

theorem starts_element (t : TypeTree .element) : Starts (· != .rightParen) t.tokens := by
  cases t with
  | unlabelled type => exact type.starts_whole
  | labelled label =>
    exact Starts.mono (p := Kind.isIdentifier) label.property (by decide)
  | relabelled outer => simp [tokens, outer.kind_eq]

theorem ends_comma (others : TypeTree .moreElements) {behind : List Token}
    (ends : TypePart.moreElements.EndsAt behind) :
    TypePart.element.EndsAt (others.tokens ++ behind) := by
  cases others with
  | lastElement =>
    exact ends.mono (by decide) (by decide)
  | moreElements comma element others => exact ends_of_kind comma _ (by decide)

theorem isRead_someElements {first : TypeTree .element} {others : TypeTree .moreElements}
    (ihFirst : first.IsRead) (ihOthers : others.IsRead) :
    (someElements first others).IsRead := by
  refine .intro fun fuel behind enough ends => ?_
  have front := first.starts_element
  have some := front.length_pos
  simp only [tokens, List.length_append, TypePart.rank] at enough
  have endsMore : TypePart.moreElements.EndsAt behind := ends.mono (fun _ h => h) (by decide)
  have here := ihFirst fuel _ (by simp only [TypePart.rank]; omega) (others.ends_comma endsMore)
  have rest := ihOthers fuel behind (by simp only [TypePart.rank]; omega) endsMore
  have noClosing := (front.append (others.tokens ++ behind)).peek_ne (k := .rightParen) (by decide)
  simp only [parse, tokens, List.append_assoc, Parser.peek_bind]
  rw [if_neg noClosing, Parser.bind_done here, Parser.bind_done rest]
  rfl

theorem isRead_lastElement : lastElement.IsRead := by
  refine .intro fun fuel behind _ ends => ?_
  simp only [parse, tokens, List.nil_append, Parser.peek_bind]
  rw [if_neg (ends.1.peek_ne (by decide))]
  rfl

theorem isRead_moreElements (comma : Tok .comma) {element : TypeTree .element}
    {others : TypeTree .moreElements} (ihElement : element.IsRead) (ihOthers : others.IsRead) :
    (moreElements comma element others).IsRead := by
  refine .intro fun fuel behind enough ends => ?_
  simp only [tokens, List.cons_append, List.length_cons, List.length_append, TypePart.rank]
    at enough
  have first := ihElement fuel _ (by simp only [TypePart.rank]; omega) (others.ends_comma ends)
  have rest := ihOthers fuel behind (by simp only [TypePart.rank]; omega) ends
  simp only [parse, tokens, List.cons_append, List.append_assoc, Parser.peek_bind,
    List.head?_cons, Option.map_some, comma.kind_eq]
  rw [if_pos (by decide), Parser.bind_done (Parser.token_cons comma _), Parser.bind_done first,
    Parser.bind_done rest]
  rfl

/-- Every part of a type is read. -/
theorem isRead {p : TypePart} (t : TypeTree p) : t.IsRead := by
  induction t with
  | attributed sign name type ih => exact isRead_attributed sign name ih
  | composed unit more ihUnit ihMore => exact isRead_composed ihUnit ihMore
  | function unit effects arrow result ihUnit ihResult =>
    exact isRead_function effects arrow ihUnit ihResult
  | noConjunct => exact isRead_noConjunct
  | conjunct sign unit more ihUnit ihMore => exact isRead_conjunct sign ihUnit ihMore
  | marked primary marks ih => exact isRead_marked marks ih
  | named first path ihFirst ihPath => exact isRead_named ihFirst ihPath
  | array opening element closing ih => exact isRead_array opening closing ih
  | dictionary opening key colon value closing ihKey ihValue =>
    exact isRead_dictionary opening colon closing ihKey ihValue
  | tuple opening elements closing ih => exact isRead_tuple opening closing ih
  | prefixed word primary ih => exact isRead_prefixed word ih
  | pathEnd => exact isRead_pathEnd
  | member dot identifier path ihIdentifier ihPath => exact isRead_member dot ihIdentifier ihPath
  | plain name => exact isRead_plain name
  | generic name opening first others closing ihFirst ihOthers =>
    exact isRead_generic name opening closing ihFirst ihOthers
  | noArgument => exact isRead_noArgument
  | argument comma type others ihType ihOthers => exact isRead_argument comma ihType ihOthers
  | noElement => exact isRead_noElement
  | someElements first others ihFirst ihOthers => exact isRead_someElements ihFirst ihOthers
  | unlabelled type ih => exact isRead_unlabelled ih
  | labelled label colon type ih => exact isRead_labelled label colon ih
  | relabelled outer inner colon type ih => exact isRead_relabelled outer inner colon ih
  | lastElement => exact isRead_lastElement
  | moreElements comma element others ihElement ihOthers =>
    exact isRead_moreElements comma ihElement ihOthers

end TypeTree

/-! ## Types in declarations -/

/-- The kinds that go on with a type. -/
abbrev extendsType : Kind → Bool := TypePart.whole.goesOn

theorem TypeSyntax.reads (t : TypeSyntax) {fuel : Nat} {behind : List Token}
    (enough : 8 * t.tokens.length + 4 ≤ fuel) (stop : Stops extendsType behind) :
    Reads (TypeSyntax.parse fuel) TypeTree.tokens t behind :=
  t.isRead fuel behind enough ⟨stop, fun eq => absurd eq (by decide)⟩

theorem TypeClause.reads? {o : Option TypeClause} {fuel : Nat} {behind : List Token}
    (enough : 8 * (optionTokens TypeClause.tokens o).length ≤ fuel)
    (stop : Stops (fun k => k == .colon || extendsType k) behind) :
    Reads (TypeClause.parse? fuel) (optionTokens TypeClause.tokens) o behind := by
  refine .optional ?_ (fun c _ => c.colon.property) fun _ => stop.mono (by decide)
  rintro c rfl
  simp only [optionTokens, tokens, List.length_cons] at enough
  have inner : Reads (TypeSyntax.parse fuel) TypeTree.tokens c.type behind :=
    TypeSyntax.reads c.type (by omega) (stop.mono (by decide))
  simp only [Reads, tokens, List.cons_append]
  rw [Parser.bind_done (Parser.token_cons c.colon _), Parser.bind_done inner]
  rfl

end Conformance.Grammar
