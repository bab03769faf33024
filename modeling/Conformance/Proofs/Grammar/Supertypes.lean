import Conformance.Declaration.OfSyntax
import Conformance.Proofs.Grammar.Exactness
import Conformance.Proofs.Grammar.Nesting
import Conformance.Proofs.Grammar.PromptRow
import Conformance.Proofs.Token.Unplaced

/-!
# Supertypes of structured and loose headers

A structured header has its supertypes as types, a loose one as atoms that are cut at commas.
Both can be told from the tokens behind the name alone: where they begin with a colon, those
behind it are cut at the commas outside of brackets and angles, up to the requirements or the
body (`supertypesIn`).

A type has no comma outside of brackets and angles, and closes what it opens, so the cuts are
the commas between types (`TypeTree.uncut`).
-/

namespace Conformance.Grammar

/-! ## Cutting tokens -/

/-- Tokens cut at the commas outside of brackets and angles, up to a requirement or a body.
`angles` counts the angles that are open, `opened` are the brackets, and `current` are the tokens
since the last cut, the latest first. -/
def cut (angles : Int) (opened : List Bracket) (current : List Token) :
    List Token → List (List Token)
  | [] => [current.reverse]
  | t :: ts =>
    if opened.isEmpty then
      match t.kind with
      | .whereKw | .leftBrace => [current.reverse]
      | .leftAngle => cut (angles + 1) [] (t :: current) ts
      | .rightAngle => cut (angles - 1) [] (t :: current) ts
      | .comma =>
        if angles = 0 then current.reverse :: cut angles [] [] ts
        else cut angles [] (t :: current) ts
      | k => cut angles ((nestKind [] k).getD []) (t :: current) ts
    else cut angles ((nestKind opened t.kind).getD []) (t :: current) ts

/-- The text of neighbouring tokens, with its blanks collapsed. -/
def textOf (ts : List Token) : String := Text.squash (Token.stretch ts)

/-- The supertypes in the tokens behind the name of a type. -/
def supertypesIn : List Token → List String
  | [] => []
  | t :: ts =>
    if t.kind = .colon then ((cut 0 [] [] ts).filter (!·.isEmpty)).map textOf else []

/-- Behind an angle there are no supertypes. -/
theorem supertypesIn_of_angle {ts : List Token} (angle : Starts (· == .leftAngle) ts) :
    supertypesIn ts = [] := by
  cases ts with
  | nil => rfl
  | cons t ts =>
    have kind : t.kind = .leftAngle := beq_iff_eq.mp (starts_cons.mp angle)
    rw [supertypesIn, kind]
    rfl

section
variable {angles : Int} {opened closed : List Bracket} {current ts us : List Token} {t : Token}

/-- Inside brackets nothing is cut. -/
theorem cut_nested (b : Bracket) (below : List Bracket)
    (level : nesting opened (us.map Token.kind) = some closed) :
    cut angles (opened ++ b :: below) current (us ++ ts) =
      cut angles (closed ++ b :: below) (us.reverse ++ current) ts := by
  induction us generalizing opened current with
  | nil =>
    cases level
    rfl
  | cons u us ih =>
    rw [List.map_cons, nesting_cons, Option.bind_eq_some_iff] at level
    obtain ⟨middle, first, others⟩ := level
    have some : (opened ++ b :: below).isEmpty = false := by cases opened <;> rfl
    rw [List.cons_append, cut, some, if_neg Bool.false_ne_true,
      nestKind_frame first (b :: below), Option.getD_some, ih others]
    simp

/-- Tokens go into the current part as a whole. -/
def Uncut (angles : Int) (us : List Token) : Prop :=
  ∀ current ts, cut angles [] current (us ++ ts) = cut angles [] (us.reverse ++ current) ts

namespace Uncut

theorem nil : Uncut angles [] := fun _ _ => rfl

theorem append (first : Uncut angles us) (second : Uncut angles ts) : Uncut angles (us ++ ts) := by
  intro current rest
  rw [List.append_assoc, first, second, List.reverse_append, List.append_assoc]

/-- A kind that neither cuts nor opens anything. -/
def isQuiet (k : Kind) : Bool :=
  !k.isBracket && k != .whereKw && k != .leftAngle && k != .rightAngle && k != .comma

theorem token (quiet : isQuiet t.kind = true) : Uncut angles [t] := by
  intro current rest
  have plain : t.kind.isBracket = false := by
    simp only [isQuiet, Bool.and_eq_true, Bool.not_eq_true'] at quiet
    exact quiet.1.1.1.1
  rw [List.singleton_append, cut, if_pos List.isEmpty_nil]
  split <;> first | rw [nestKind_plain plain]; rfl | simp_all [isQuiet, Kind.isBracket]

theorem cons (quiet : isQuiet t.kind = true) (h : Uncut angles us) : Uncut angles (t :: us) :=
  (token quiet).append h

theorem words {p : Kind → Bool} (quiet : ∀ k, p k = true → isQuiet k = true)
    (ws : List (Word p)) : Uncut angles (ws.map Subtype.val) := by
  induction ws with
  | nil => exact .nil
  | cons w ws ih => exact .cons (quiet _ w.property) ih

/-- A group in round or square brackets. -/
theorem group {opening closing : Token} (b : Bracket) (admitted : b.isRoundOrSquare = true)
    (opens : opening.kind = b.opener) (closes : closing.kind = b.closer)
    (level : IsLevel (us.map Token.kind)) : Uncut angles (opening :: us ++ [closing]) := by
  intro current rest
  have opener : cut angles [] current (opening :: (us ++ closing :: rest)) =
      cut angles [b] (opening :: current) (us ++ closing :: rest) := by
    rw [cut, if_pos List.isEmpty_nil, opens]
    cases b <;> first | rfl | cases admitted
  have closer (current : List Token) : cut angles [b] current (closing :: rest) =
      cut angles [] (closing :: current) rest := by
    rw [cut, if_neg (by simp), closes]
    cases b <;> rfl
  rw [List.cons_append, List.cons_append, List.append_assoc, List.singleton_append, opener]
  have inside : cut angles [b] (opening :: current) (us ++ closing :: rest) =
      cut angles [b] (us.reverse ++ opening :: current) (closing :: rest) :=
    cut_nested b [] level
  rw [inside, closer]
  simp

/-- Angles are closed again around what is not cut between them. -/
theorem inAngles {opening closing : Token} (opens : opening.kind = .leftAngle)
    (closes : closing.kind = .rightAngle) (h : Uncut (angles + 1) us) :
    Uncut angles (opening :: us ++ [closing]) := by
  intro current rest
  have opener : cut angles [] current (opening :: (us ++ closing :: rest)) =
      cut (angles + 1) [] (opening :: current) (us ++ closing :: rest) := by
    rw [cut, if_pos List.isEmpty_nil, opens]
  have closer (current : List Token) : cut (angles + 1) [] current (closing :: rest) =
      cut angles [] (closing :: current) rest := by
    rw [cut, if_pos List.isEmpty_nil, closes, Int.add_sub_cancel]
  rw [List.cons_append, List.cons_append, List.append_assoc, List.singleton_append, opener, h,
    closer]
  simp

/-- A comma inside angles. -/
theorem comma (comma : t.kind = .comma) (inside : angles ≠ 0) : Uncut angles [t] := by
  intro current rest
  rw [List.singleton_append, cut, if_pos List.isEmpty_nil, comma]
  exact if_neg inside

end Uncut

/-! ## Types -/

/-- Whether a part of a type stands in parentheses only. -/
def TypePart.inTuple : TypePart → Bool
  | .elements | .element | .moreElements => true
  | _ => false

/-- How many angles are open around a part of a type at least. -/
def TypePart.openAngles : TypePart → Int
  | .arguments => 1
  | _ => 0

/-- A type is not cut, and neither are its parts outside of tuples, with as many angles open as
there are around them. -/
theorem TypeTree.uncut {p : TypePart} (t : TypeTree p) (outside : p.inTuple = false)
    (enough : p.openAngles ≤ angles) : Uncut angles t.tokens := by
  have quiet {k : Kind} (w : Tok k) (is : Uncut.isQuiet k = true) :
      Uncut.isQuiet w.val.kind = true := by rw [w.kind_eq, is]
  induction t generalizing angles with
  | noConjunct | pathEnd | noArgument => exact .nil
  | noElement | someElements | unlabelled | labelled | relabelled | lastElement
  | moreElements => cases outside
  | plain name => exact .token (quiet name rfl)
  | attributed sign name type ih =>
    exact .cons (quiet sign rfl) (.cons (quiet name rfl) (ih rfl enough))
  | prefixed word primary ih => exact .cons (quiet word rfl) (ih rfl enough)
  | composed unit more ihUnit ihMore | named unit more ihUnit ihMore =>
    exact (ihUnit rfl enough).append (ihMore rfl enough)
  | conjunct sign unit more ihUnit ihMore | member sign unit more ihUnit ihMore =>
    exact (Uncut.cons (quiet sign rfl) (ihUnit rfl enough)).append (ihMore rfl enough)
  | function unit effects arrow result ihUnit ihResult =>
    exact ((ihUnit rfl enough).append (.words (by decide) effects)).append
      (.cons (quiet arrow rfl) (ihResult rfl enough))
  | marked primary marks ih => exact (ih rfl enough).append (.words (by decide) marks)
  | array opening element closing ih =>
    exact .group .square rfl opening.kind_eq closing.kind_eq element.isLevel
  | dictionary opening key colon value closing ihKey ihValue =>
    have level : IsLevel ((key.tokens ++ colon.val :: value.tokens).map Token.kind) := by
      rw [List.map_append]
      exact key.isLevel.append (.tok colon rfl value.isLevel)
    exact .group .square rfl opening.kind_eq closing.kind_eq level
  | tuple opening elements closing ih =>
    exact .group .paren rfl opening.kind_eq closing.kind_eq elements.isLevel
  | generic name opening first others closing ihFirst ihOthers =>
    have nonnegative : 0 ≤ angles := enough
    have inner : Uncut (angles + 1) (first.tokens ++ others.tokens) :=
      (ihFirst rfl (by simp only [TypePart.openAngles]; omega)).append
        (ihOthers rfl (by simp only [TypePart.openAngles]; omega))
    have whole : (generic name opening first others closing).tokens =
        name.val :: (opening.val :: (first.tokens ++ others.tokens) ++ [closing.val]) := by
      simp [tokens]
    rw [whole]
    exact .cons (quiet name rfl) (.inAngles opening.kind_eq closing.kind_eq inner)
  | argument comma type others ihType ihOthers =>
    have positive : 1 ≤ angles := enough
    exact ((Uncut.comma comma.kind_eq (by omega)).append
      (ihType rfl (by simp only [TypePart.openAngles]; omega))).append (ihOthers rfl enough)

/-! ## Headers -/

/-- Tokens that stop at a requirement or a body. -/
theorem cut_stop (stop : t.kind = .whereKw ∨ t.kind = .leftBrace) :
    cut angles [] current (t :: ts) = [current.reverse] := by
  rw [cut, if_pos List.isEmpty_nil]
  rcases stop with stop | stop <;> rw [stop]

/-- Types with commas between them are cut at these commas. -/
theorem cut_listed (types : Listed TypeSyntax) (stop : t.kind = .whereKw ∨ t.kind = .leftBrace) :
    cut 0 [] [] (types.tokens TypeTree.tokens ++ t :: ts) = types.toList.map TypeTree.tokens := by
  have uncut (type : TypeSyntax) : Uncut 0 type.tokens := type.uncut rfl (Int.le_refl 0)
  have others (current : List Token) (others : List (Tok .comma × TypeSyntax)) :
      cut 0 [] current (others.flatMap (fun (comma, type) => comma.val :: type.tokens) ++ t :: ts) =
        current.reverse :: (others.map Prod.snd).map TypeTree.tokens := by
    induction others generalizing current with
    | nil => exact cut_stop stop
    | cons first others ih =>
      obtain ⟨comma, type⟩ := first
      rw [List.flatMap_cons, List.append_assoc, List.cons_append, cut, if_pos List.isEmpty_nil,
        comma.kind_eq]
      dsimp only
      rw [if_pos rfl, uncut type, ih, List.append_nil, List.reverse_reverse]
      rfl
  rw [Listed.tokens, List.append_assoc, uncut types.first, others, List.append_nil,
    List.reverse_reverse]
  rfl

/-- The cuts between atoms are those between their tokens. -/
theorem map_cutAtCommas (brace : t.kind = .leftBrace) (angles : Int)
    (current atoms : List HeaderAtom) :
    (Header.cutAtCommas angles current atoms).map (List.flatMap Atom.tokens) =
      cut angles [] (current.reverse.flatMap Atom.tokens).reverse
        (atoms.flatMap Atom.tokens ++ t :: ts) := by
  induction atoms generalizing angles current with
  | nil =>
    rw [List.flatMap_nil, List.nil_append, cut_stop (.inr brace), List.reverse_reverse]
    rfl
  | cons a atoms ih =>
    have further (angles : Int) : cut angles [] (a.tokens.reverse ++
        (current.reverse.flatMap Atom.tokens).reverse) (atoms.flatMap Atom.tokens ++ t :: ts) =
          (Header.cutAtCommas angles (a :: current) atoms).map (List.flatMap Atom.tokens) := by
      rw [ih]
      simp
    rw [List.flatMap_cons, List.append_assoc]
    cases a with
    | group b admitted g =>
      have uncut : Uncut angles (Atom.group b admitted g : HeaderAtom).tokens :=
        .group b admitted g.opening.kind_eq g.closing.kind_eq g.body.isLevel
      rw [uncut, further]
      rfl
    | word w =>
      change _ = cut angles [] _ (w.val :: _)
      rw [Header.cutAtCommas]
      split
      next is =>
        have kind : w.val.kind = .whereKw := Option.some.inj is
        rw [cut_stop (.inl kind), List.reverse_reverse]
        rfl
      next is =>
        have kind : w.val.kind = .leftAngle := Option.some.inj is
        rw [cut, if_pos List.isEmpty_nil, kind]
        exact (further (angles + 1)).symm
      next is =>
        have kind : w.val.kind = .rightAngle := Option.some.inj is
        rw [cut, if_pos List.isEmpty_nil, kind]
        exact (further (angles - 1)).symm
      next is =>
        have kind : w.val.kind = .comma := Option.some.inj is
        rw [cut, if_pos List.isEmpty_nil, kind]
        dsimp only
        split
        next zero => rw [List.map_cons, ih, List.reverse_reverse]; rfl
        next => exact (further angles).symm
      next noWhere noLeft noRight noComma =>
        have words : ∀ k : Kind, k.isHeaderWord = true → k ≠ .whereKw → k ≠ .leftAngle →
            k ≠ .rightAngle → k ≠ .comma → Uncut.isQuiet k = true := by decide
        have quiet := words _ w.property (fun is => noWhere (congrArg some is))
          (fun is => noLeft (congrArg some is)) (fun is => noRight (congrArg some is))
          (fun is => noComma (congrArg some is))
        exact (further angles).symm.trans (Uncut.token quiet _ _).symm

/-- There are as many tokens as atoms at least. -/
theorem isEmpty_flatMap_tokens (atoms : List HeaderAtom) :
    (atoms.flatMap Atom.tokens).isEmpty = atoms.isEmpty := by
  cases atoms with
  | nil => rfl
  | cons a atoms => cases a <;> rfl

/-- The supertypes among atoms are in the tokens in front of the body. -/
theorem looseSupertypes_eq (atoms : List HeaderAtom) (brace : t.kind = .leftBrace) :
    Header.looseSupertypes atoms = supertypesIn (atoms.flatMap Atom.tokens ++ t :: ts) := by
  cases atoms with
  | nil => simp [Header.looseSupertypes, supertypesIn, brace]
  | cons a atoms =>
    cases a with
    | group b admitted g =>
      have kind : g.opening.val.kind ≠ .colon := by
        rw [g.opening.kind_eq]
        cases b <;> decide
      exact (if_neg kind).symm
    | word w =>
      change _ = supertypesIn (w.val :: (atoms.flatMap Atom.tokens ++ t :: ts))
      rw [Header.looseSupertypes, supertypesIn]
      by_cases colon : w.val.kind = .colon
      · have cuts : (Header.cutAtCommas 0 [] atoms).map (List.flatMap Atom.tokens) =
            cut 0 [] [] (atoms.flatMap Atom.tokens ++ t :: ts) :=
          map_cutAtCommas brace 0 [] atoms
        have none : ((fun ts : List Token => !ts.isEmpty) ∘ List.flatMap Atom.tokens) =
            fun atoms : List HeaderAtom => !atoms.isEmpty :=
          funext fun atoms => congrArg not (isEmpty_flatMap_tokens atoms)
        rw [if_pos (by simp [Header.atomKind?, Atom.word?, colon]), if_pos colon, ← cuts,
          List.filter_map, none, List.map_map]
        rfl
      · rw [if_neg (by simp [Header.atomKind?, Atom.word?, colon]), if_neg colon]

/-- Atoms that begin with no dot have no parts of a name in front. -/
theorem nameParts_of_stops {atoms : List HeaderAtom}
    (noDot : Stops (· == .dot) (atoms.flatMap Atom.tokens ++ ts)) :
    Header.nameParts atoms = ([], atoms) := by
  match atoms with
  | [] | .group .. :: _ | [.word _] | .word _ :: .group .. :: _ => rfl
  | .word dot :: .word part :: rest =>
    have apart : (dot.val.kind == .dot) = false := stops_cons.mp noDot
    rw [Header.nameParts, apart, Bool.false_and, if_neg Bool.false_ne_true]

/-- The supertypes of a structured header without generic parameters are in the tokens behind the
name. -/
theorem structuredSupertypes_eq {head : Head} {keyword : Word Kind.isStructuredNominal}
    {name : Tok .name} {inheritance : Option Inheritance} {requirements : Option WhereClause}
    (brace : t.kind = .leftBrace) :
    (Header.structured head keyword name none inheritance requirements).supertypes =
      supertypesIn (optionTokens Inheritance.tokens inheritance ++
        (optionTokens WhereClause.tokens requirements ++ t :: ts)) := by
  obtain ⟨stop, rest, eq, stops, noColon⟩ : ∃ u us, optionTokens WhereClause.tokens requirements ++
      t :: ts = u :: us ∧ (u.kind = .whereKw ∨ u.kind = .leftBrace) ∧ u.kind ≠ .colon := by
    cases requirements with
    | none => exact ⟨t, ts, rfl, .inr brace, by simp [brace]⟩
    | some w => exact ⟨w.keyword.val, _, rfl, .inl w.keyword.kind_eq, by simp [w.keyword.kind_eq]⟩
  rw [eq]
  cases inheritance with
  | none => exact (if_neg noColon).symm
  | some i =>
    have some (part : List Token) (mem : part ∈ i.types.toList.map TypeTree.tokens) :
        (!part.isEmpty) = true := by
      obtain ⟨type, -, rfl⟩ := List.mem_map.mp mem
      have positive := type.starts_whole.length_pos
      simpa using List.ne_nil_of_length_pos positive
    change i.types.toList.map TypeSyntax.text =
      supertypesIn (i.colon.val :: (i.types.tokens TypeTree.tokens ++ stop :: rest))
    rw [supertypesIn, if_pos i.colon.kind_eq, cut_listed i.types stops,
      List.filter_eq_self.mpr some, List.map_map]
    rfl

/-! ## Places -/

theorem cut_unplaced (angles : Int) (opened : List Bracket) (current ts : List Token) :
    cut angles opened (current.map Token.unplaced) (ts.map Token.unplaced) =
      (cut angles opened current ts).map (List.map Token.unplaced) := by
  induction ts generalizing angles opened current with
  | nil => simp [cut]
  | cons t ts ih =>
    have further (angles : Int) (opened : List Bracket) :
        cut angles opened (t.unplaced :: current.map Token.unplaced) (ts.map Token.unplaced) =
          (cut angles opened (t :: current) ts).map (List.map Token.unplaced) :=
      ih angles opened (t :: current)
    rw [List.map_cons, cut, cut, Token.kind_unplaced]
    split
    · split
      · simp
      · simp
      · exact further _ _
      · exact further _ _
      · split
        · have next := ih angles [] []
          rw [List.map_nil] at next
          simp [next]
        · exact further _ _
      · exact further _ _
    · exact further _ _

/-- Supertypes hang on no places. -/
theorem supertypesIn_unplaced (ts : List Token) :
    supertypesIn (ts.map Token.unplaced) = supertypesIn ts := by
  cases ts with
  | nil => rfl
  | cons t ts =>
    have cuts := cut_unplaced 0 [] [] ts
    rw [List.map_nil] at cuts
    have some : (fun ts : List Token => !ts.isEmpty) ∘ List.map Token.unplaced =
        fun ts => !ts.isEmpty := by
      funext ts
      simp
    have text : textOf ∘ List.map Token.unplaced = textOf :=
      funext fun ts => congrArg Text.squash (Token.stretch_unplaced ts)
    rw [List.map_cons, supertypesIn, supertypesIn, Token.kind_unplaced, cuts, List.filter_map,
      some, List.map_map, text]

end

/-! ## Rows -/

namespace Items

variable {t : Token} {us : List Token} {i : Items}

/-- A row that begins with a keyword has its first declaration read from behind an empty head. -/
theorem exists_parseForm (keyword : isKeyword t.kind = true)
    (parsed : Grammar.parse (t :: us) = .done i []) :
    ∃ fuel, parseForm (parse fuel) fuel ⟨[], []⟩
      (Form.of (some t.kind) (us.head?.map Token.kind)) (t :: us) = .done i [] := by
  have read : parse (enough (t :: us).length) (t :: us) = .done i [] := by
    unfold Grammar.parse at parsed
    split at parsed
    next done =>
      cases parsed
      exact done
    next => cases parsed
    next => cases parsed
  refine ⟨8 * (t :: us).length + 7, ?_⟩
  have starts : Starts isKeyword (t :: us) := starts_cons.mpr keyword
  have apart : ∀ k : Kind, isKeyword k = true → extendsHead k = false := by decide
  have head : Head.parse (8 * (t :: us).length + 7) (t :: us) = .done ⟨[], []⟩ (t :: us) :=
    Head.reads ⟨[], []⟩ (Nat.zero_le _) (starts.stops apart)
  have whole : parse (8 * (t :: us).length + 7 + 1) (t :: us) = _ :=
    @parse_of_keyword ⟨[], []⟩ (t :: us) starts _
  rw [enough, whole, parseDeclaration_eq] at read
  exact (Parser.bind_done head _).symm.trans read

/-- A type with its members is read from behind its header. -/
theorem exists_nominal {row : Parser Items} {header : Header} {ts rest : List Token}
    (read : parseNominal row header ts = .done i rest) :
    ∃ opening members closing others, i = .nominal header opening members closing others := by
  rw [parseNominal] at read
  obtain ⟨opening, _, -, read⟩ := Parser.bind_eq_done.mp read
  obtain ⟨members, _, -, read⟩ := Parser.bind_eq_done.mp read
  obtain ⟨closing, _, -, read⟩ := Parser.bind_eq_done.mp read
  obtain ⟨others, _, -, read⟩ := Parser.bind_eq_done.mp read
  cases read
  exact ⟨opening, members, closing, others, rfl⟩

/-- The type that a row begins with, where its header is structured: without generic parameters
its supertypes are in the tokens behind its name. -/
theorem exists_structured (keyword : isKeyword t.kind = true)
    (form : Form.of (some t.kind) (us.head?.map Token.kind) = .structured)
    (parsed : Grammar.parse (t :: us) = .done i []) :
    ∃ header opening members closing rest, i = .nominal header opening members closing rest ∧
      Stops (· == .dot) us.tail ∧
      (Stops (· == .leftAngle) us.tail → header.supertypes = supertypesIn us.tail) := by
  obtain ⟨fuel, read⟩ := exists_parseForm keyword parsed
  rw [form] at read
  obtain ⟨header, _, readHeader, read⟩ := Parser.bind_eq_done.mp read
  obtain ⟨opening, members, closing, rest, rfl⟩ := exists_nominal read
  refine ⟨header, opening, members, closing, rest, rfl, ?_⟩
  rw [Header.parseStructured] at readHeader
  obtain ⟨keyword, _, -, readHeader⟩ := Parser.bind_eq_done.mp readHeader
  obtain ⟨name, _, -, readHeader⟩ := Parser.bind_eq_done.mp readHeader
  obtain ⟨generics, _, -, readHeader⟩ := Parser.bind_eq_done.mp readHeader
  obtain ⟨inheritance, _, -, readHeader⟩ := Parser.bind_eq_done.mp readHeader
  obtain ⟨requirements, _, -, readHeader⟩ := Parser.bind_eq_done.mp readHeader
  cases readHeader
  have behind : us.tail = optionTokens GenericClause.tokens generics ++
      (optionTokens Inheritance.tokens inheritance ++
        (optionTokens WhereClause.tokens requirements ++ opening.val ::
          (members.tokens ++ closing.val :: rest.tokens))) := by
    have eq := (List.cons.inj (tokens_of_parse parsed).1.symm).2
    rw [eq]
    simp
  have brace : Stops (· == .dot)
      (opening.val :: (members.tokens ++ closing.val :: rest.tokens)) := by
    simp [opening.kind_eq]
  rw [behind]
  refine ⟨?_, fun plain => ?_⟩
  · refine stops_option (p := (· == .leftAngle)) (fun g _ => g.opening.property) (by decide) ?_
    refine stops_option (p := (· == .colon)) (fun i _ => i.colon.property) (by decide) ?_
    exact stops_option (p := (· == .whereKw)) (fun w _ => w.keyword.property) (by decide) brace
  · cases generics with
    | none => exact structuredSupertypes_eq opening.kind_eq
    | some g =>
      have opens : (g.opening.val.kind == .leftAngle) = true := g.opening.property
      exact absurd (stops_cons.mp plain) (by simp [opens])

/-- The type that a row begins with, where its header is loose: its supertypes are in the tokens
behind its name, if this is a single word. -/
theorem exists_loose (keyword : isKeyword t.kind = true)
    (form : Form.of (some t.kind) (us.head?.map Token.kind) = .loose)
    (parsed : Grammar.parse (t :: us) = .done i []) :
    ∃ header opening members closing rest, i = .nominal header opening members closing rest ∧
      (Stops (· == .dot) us.tail → header.supertypes = supertypesIn us.tail) := by
  obtain ⟨fuel, read⟩ := exists_parseForm keyword parsed
  rw [form] at read
  obtain ⟨header, _, readHeader, read⟩ := Parser.bind_eq_done.mp read
  obtain ⟨opening, members, closing, rest, rfl⟩ := exists_nominal read
  refine ⟨header, opening, members, closing, rest, rfl, fun noDot => ?_⟩
  rw [Header.parseLoose] at readHeader
  obtain ⟨keyword, _, -, readHeader⟩ := Parser.bind_eq_done.mp readHeader
  obtain ⟨name, _, -, readHeader⟩ := Parser.bind_eq_done.mp readHeader
  obtain ⟨atoms, _, -, readHeader⟩ := Parser.bind_eq_done.mp readHeader
  cases readHeader
  have behind : us.tail = atoms.flatMap Atom.tokens ++ opening.val ::
      (members.tokens ++ closing.val :: rest.tokens) := by
    have eq := (List.cons.inj (tokens_of_parse parsed).1.symm).2
    rw [eq]
    simp
  rw [behind] at noDot ⊢
  rw [← looseSupertypes_eq atoms opening.kind_eq, Header.supertypes, nameParts_of_stops noDot,
    ite_self]

end Items

end Conformance.Grammar
