import Conformance.Proofs.Grammar.ItemDerivation
import Conformance.Proofs.Grammar.TypeCompleteness

/-!
# Every declaration is read

Heads, headers, properties, cases and leaves are read where they end, and so are
rows of declarations.  Line breaks do not count: what ends a declaration is a
semicolon, a directive, a closing brace or the first word of another declaration,
`endsDeclaration`, and no such token goes on with any phrase that a declaration
may end in.
-/

namespace Conformance.Grammar

/-- The kinds behind a declaration. -/
def endsDeclaration (k : Kind) : Bool :=
  k == .semicolon || k == .directive || k == .rightBrace || startsDeclaration k

/-! ## Heads -/

theorem Attribute.starts (a : Attribute) : Starts (· == .atSign) a.tokens := a.sign.property

theorem Attribute.reads (a : Attribute) {fuel : Nat} {behind : List Token}
    (enough : a.tokens.length ≤ fuel) (stop : Stops (· == .leftParen) behind) :
    Reads (Attribute.parse fuel) Attribute.tokens a behind := by
  simp only [tokens, List.length_cons] at enough
  have group : Reads (Group.parse? .paren fuel) (optionTokens Group.tokens) a.arguments behind :=
    Group.reads? (by omega) stop
  simp only [Reads, parse, tokens, List.cons_append]
  rw [Parser.bind_done (Parser.token_cons a.sign _),
    Parser.bind_done (Parser.token_cons a.name _), Parser.bind_done group]
  rfl

theorem Modifier.starts (m : Modifier) : Starts Kind.isModifier m.tokens := by
  have sub : ∀ k : Kind, k.takesDetail = true → k.isModifier = true := by decide
  cases m with
  | plain word => exact word.property
  | detailed word => exact sub _ word.property

theorem Modifier.reads (m : Modifier) {behind : List Token}
    (stop : Stops (· == .leftParen) behind) : Reads Modifier.parse Modifier.tokens m behind := by
  simp only [Reads, parse, Parser.peek_bind, Parser.peekSecond_bind]
  cases m with
  | plain word =>
    have noDetail := stop.peek_ne (k := .leftParen) (by decide)
    rw [if_neg (by simp [tokens] at noDetail ⊢; exact fun _ => noDetail)]
    exact Parser.map_done (Parser.word_cons word _) _
  | detailed word opening detail closing =>
    rw [if_pos (by simp [tokens, word.property, opening.kind_eq])]
    simp only [tokens, List.cons_append, List.nil_append]
    rw [Parser.bind_done (Parser.word_cons word _), Parser.bind_done (Parser.token_cons opening _),
      Parser.bind_done (Parser.token_cons detail _),
      Parser.bind_done (Parser.token_cons closing _)]
    rfl

/-- The kinds that go on with a head. -/
def extendsHead (k : Kind) : Bool := k == .atSign || k.isModifier || k == .leftParen

theorem Head.reads (h : Head) {fuel : Nat} {behind : List Token}
    (enough : h.tokens.length ≤ fuel) (stop : Stops extendsHead behind) :
    Reads (Head.parse fuel) Head.tokens h behind := by
  simp only [tokens, List.length_append] at enough
  have modifiers : Reads (Parser.many Kind.isModifier Modifier.parse fuel)
      (List.flatMap Modifier.tokens) h.modifiers behind := by
    have fit : Each Modifier.tokens (fun _ ts => Stops (· == .leftParen) ts) h.modifiers behind :=
      each_of_front (fun m _ => m.starts) (fun _ next => next.stops (by decide))
        (stop.mono (by decide))
    exact .many (by omega) (fit.imp fun m _ _ fit => m.reads fit) (fun m _ => m.starts)
      (stop.mono (by decide))
  have behindAttributes {q : Kind → Bool} (sub : ∀ k, q k = true → extendsHead k = true)
      (apart : ∀ k : Kind, k.isModifier = true → q k = false) :
      Stops q (h.modifiers.flatMap Modifier.tokens ++ behind) := by
    cases h.modifiers with
    | nil => exact stop.mono sub
    | cons m ms => exact ((m.starts.append _).append _).stops apart
  have attributes : Reads (Parser.many (· == .atSign) (Attribute.parse fuel) fuel)
      (List.flatMap Attribute.tokens) h.attributes
      (h.modifiers.flatMap Modifier.tokens ++ behind) := by
    have fit : Each Attribute.tokens (fun _ ts => Stops (· == .leftParen) ts) h.attributes
        (h.modifiers.flatMap Modifier.tokens ++ behind) :=
      each_of_front (fun a _ => a.starts) (fun _ next => next.stops (by decide))
        (behindAttributes (by decide) (by decide))
    refine .many (by omega) (fit.imp fun a mem _ fit => a.reads ?_ fit) (fun a _ => a.starts)
      (behindAttributes (by decide) (by decide))
    have := length_le_flatMap Attribute.tokens mem
    omega
  simp only [Reads, parse, tokens, List.append_assoc]
  rw [Parser.bind_done attributes, Parser.bind_done modifiers]
  rfl

/-! ## Headers -/

theorem GenericParameter.reads (p : GenericParameter) {fuel : Nat} {behind : List Token}
    (enough : 8 * p.tokens.length ≤ fuel)
    (stop : Stops (fun k => k == .colon || extendsType k) behind) :
    Reads (GenericParameter.parse fuel) GenericParameter.tokens p behind := by
  simp only [tokens, List.length_cons] at enough
  have constraint : Reads (TypeClause.parse? fuel) (optionTokens TypeClause.tokens) p.constraint
      behind := TypeClause.reads? (by omega) stop
  simp only [Reads, parse, tokens, List.cons_append]
  rw [Parser.bind_done (Parser.token_cons p.name _), Parser.bind_done constraint]
  rfl

theorem length_le_of_mem_listed {α : Type} (yield : α → List Token) {l : Listed α} {a : α}
    (h : a ∈ l.toList) : (yield a).length ≤ (l.tokens yield).length := by
  simp only [Listed.tokens, List.length_append]
  rcases List.mem_cons.mp h with rfl | mem
  · omega
  · obtain ⟨x, here, rfl⟩ := List.mem_map.mp mem
    have := length_le_flatMap (fun (x : Tok .comma × α) => x.1.val :: yield x.2) here
    simp only [List.length_cons] at this
    omega

theorem GenericClause.reads (c : GenericClause) {fuel : Nat} {behind : List Token}
    (enough : 8 * c.tokens.length ≤ fuel) (settled : c.forest.Settled behind) :
    Reads (GenericClause.parse fuel) GenericClause.tokens c behind := by
  simp only [tokens, List.cons_append, List.length_cons, List.length_append] at enough
  simp only [forest, Forest.settled_append] at settled
  have parameters : Reads (Parser.listed (GenericParameter.parse fuel) fuel)
      (Listed.tokens GenericParameter.tokens) c.parameters (c.closing.val :: behind) := by
    refine .listed (by omega) (by simp) settled.2.1
      (F := Stops fun k => k == .colon || extendsType k) (fun p mem _ fit _ => ?_)
      (fun _ next => next.stops (by decide)) (by simp [c.closing.kind_eq]; decide)
      (by simp [c.closing.kind_eq])
    have := length_le_of_mem_listed GenericParameter.tokens mem
    exact p.reads (by omega) fit
  simp only [Reads, parse, tokens, List.cons_append, List.append_assoc, List.nil_append]
  rw [Parser.bind_done (Parser.token_cons c.opening _), Parser.bind_done parameters,
    Parser.bind_done (Parser.token_cons c.closing _)]
  rfl

theorem Inheritance.reads (i : Inheritance) {fuel : Nat} {behind : List Token}
    (enough : 8 * i.tokens.length ≤ fuel) (settled : i.forest.Settled behind)
    (stop : Stops (fun k => k == .comma || extendsType k) behind) :
    Reads (Inheritance.parse fuel) Inheritance.tokens i behind := by
  simp only [tokens, List.length_cons] at enough
  simp only [forest, Forest.settled_append] at settled
  have types : Reads (Parser.listed (TypeSyntax.parse fuel) fuel) (Listed.tokens TypeTree.tokens)
      i.types behind := by
    refine .listed (by omega) (by simp) settled.2 (F := Stops extendsType)
      (fun t mem _ fit _ => ?_) (fun _ next => next.stops (by decide)) (stop.mono (by decide))
      (stop.mono (by decide))
    have := length_le_of_mem_listed TypeTree.tokens mem
    exact TypeSyntax.reads t (by omega) fit
  simp only [Reads, parse, tokens, List.cons_append]
  rw [Parser.bind_done (Parser.token_cons i.colon _), Parser.bind_done types]
  rfl

theorem WhereClause.reads (w : WhereClause) {fuel : Nat} {behind : List Token}
    (enough : w.tokens.length ≤ fuel)
    (stop : Stops (Atom.starts Kind.isHeaderWord Bracket.isRoundOrSquare) behind) :
    Reads (WhereClause.parse fuel) WhereClause.tokens w behind := by
  simp only [tokens, List.cons_append, List.length_cons, List.length_append] at enough
  have first : Reads (Atom.parse Kind.isHeaderWord Bracket.isRoundOrSquare fuel) Atom.tokens
      w.first (w.others.flatMap Atom.tokens ++ behind) :=
    w.first.reads noOpener_header (by omega)
  have others : Reads (Atom.parseMany Kind.isHeaderWord Bracket.isRoundOrSquare fuel)
      (List.flatMap Atom.tokens) w.others behind :=
    Atom.reads_many noOpener_header w.others (by omega) stop
  simp only [Reads, parse, tokens, List.cons_append, List.append_assoc]
  rw [Parser.bind_done (Parser.token_cons w.keyword _), Parser.bind_done first,
    Parser.bind_done others]
  rfl

namespace Header

/-- The tokens of a header behind its head. -/
def bodyTokens : Header → List Token
  | structured _ keyword name generics inheritance requirements =>
    keyword.val :: name.val :: (optionTokens GenericClause.tokens generics ++
      (optionTokens Inheritance.tokens inheritance ++
        optionTokens WhereClause.tokens requirements))
  | loose _ keyword name atoms => keyword.val :: name.val :: atoms.flatMap Atom.tokens

theorem tokens_eq (h : Header) : h.tokens = h.head.tokens ++ h.bodyTokens := by
  cases h <;> simp [tokens, head, bodyTokens]

theorem parse_structured {head : Head} {keyword : Word Kind.isStructuredNominal}
    {name : Tok .name} {generics : Option GenericClause} {inheritance : Option Inheritance}
    {requirements : Option WhereClause} {block : Forest} {fuel : Nat} {behind after : List Token}
    (enough : 8 * (structured head keyword name generics inheritance requirements).tokens.length
      ≤ fuel)
    (settled : ((structured head keyword name generics inheritance requirements).forest
      block).Settled after)
    (eq : behind = block.tokens ++ after) (brace : Starts (· == .leftBrace) behind) :
    parseStructured fuel head
        ((structured head keyword name generics inheritance requirements).bodyTokens ++ behind) =
      .done (structured head keyword name generics inheritance requirements) behind := by
  simp only [tokens_eq, bodyTokens, List.length_append, List.length_cons] at enough
  simp only [forest, Forest.settled_append] at settled
  obtain ⟨-, -, -, settledGenerics, settledInheritance, -, -⟩ := settled
  have clause : Reads (Parser.optional (· == .whereKw) (WhereClause.parse fuel))
      (optionTokens WhereClause.tokens) requirements behind := by
    refine .optional ?_ (fun w _ => w.keyword.property) fun _ => brace.stops (by decide)
    rintro w rfl
    simp only [optionTokens] at enough
    exact w.reads (by omega) (brace.stops (by decide))
  have behindTypes {q : Kind → Bool} (noWhere : ∀ k : Kind, (k == .whereKw) = true → q k = false)
      (noBrace : ∀ k : Kind, (k == .leftBrace) = true → q k = false) :
      Stops q (optionTokens WhereClause.tokens requirements ++ behind) :=
    stops_option (p := (· == .whereKw)) (fun w _ => w.keyword.property) noWhere (brace.stops noBrace)
  have supertypes : Reads (Parser.optional (· == .colon) (Inheritance.parse fuel))
      (optionTokens Inheritance.tokens) inheritance
      (optionTokens WhereClause.tokens requirements ++ behind) := by
    refine .optional ?_ (fun i _ => i.colon.property) fun _ => behindTypes (by decide) (by decide)
    rintro i rfl
    simp only [optionTokens] at enough
    refine i.reads (by omega) ?_ (behindTypes (by decide) (by decide))
    simpa [eq] using (Forest.settled_under (by decide) ..).mp settledInheritance
  have parameters : Reads (Parser.optional (· == .leftAngle) (GenericClause.parse fuel))
      (optionTokens GenericClause.tokens) generics (optionTokens Inheritance.tokens inheritance ++
        (optionTokens WhereClause.tokens requirements ++ behind)) := by
    refine .optional ?_ (fun g _ => g.opening.property) fun _ =>
      stops_option (p := (· == .colon)) (fun i _ => i.colon.property) (by decide)
        (behindTypes (by decide) (by decide))
    rintro g rfl
    simp only [optionTokens] at enough
    refine g.reads (by omega) ?_
    simpa [eq] using (Forest.settled_under (by decide) ..).mp settledGenerics
  simp only [parseStructured, bodyTokens, List.cons_append, List.append_assoc]
  rw [Parser.bind_done (Parser.word_cons keyword _), Parser.bind_done (Parser.token_cons name _),
    Parser.bind_done parameters, Parser.bind_done supertypes, Parser.bind_done clause]
  rfl

theorem parse_loose {head : Head} {keyword : Word Kind.isLooseNominal} {name : Tok .name}
    {atoms : List HeaderAtom} {fuel : Nat} {behind : List Token}
    (enough : (loose head keyword name atoms).tokens.length ≤ fuel)
    (brace : Starts (· == .leftBrace) behind) :
    parseLoose fuel head ((loose head keyword name atoms).bodyTokens ++ behind) =
      .done (loose head keyword name atoms) behind := by
  simp only [tokens_eq, bodyTokens, List.length_append, List.length_cons] at enough
  have all : Reads (Atom.parseMany Kind.isHeaderWord Bracket.isRoundOrSquare fuel)
      (List.flatMap Atom.tokens) atoms behind :=
    Atom.reads_many noOpener_header atoms (by omega) (brace.stops (by decide))
  simp only [parseLoose, bodyTokens, List.cons_append]
  rw [Parser.bind_done (Parser.word_cons keyword _), Parser.bind_done (Parser.token_cons name _),
    Parser.bind_done all]
  rfl

end Header

/-! ## Properties -/

namespace PatternTree

/-- Where a part of a pattern may end.  The patterns of a tuple end at its parenthesis. -/
def EndsAt (p : PatternPart) (behind : List Token) : Prop :=
  p ≠ .whole → Starts (· == .rightParen) behind

/-- The levels of a part above its first token. -/
def rank : PatternPart → Nat
  | .whole => 0
  | .elements | .more => 1

theorem starts (t : PatternTree .whole) :
    Starts (fun k => k.isIdentifier || k == .leftParen) t.tokens := by
  cases t with
  | name word => simp [tokens, word.property]
  | tuple opening => simp [tokens, opening.kind_eq]

theorem reads {p : PatternPart} (t : PatternTree p) {fuel : Nat} {behind : List Token}
    (enough : 8 * t.tokens.length + rank p ≤ fuel) (ends : EndsAt p behind) :
    Reads (parse fuel p) tokens t behind := by
  induction t generalizing fuel behind with
  | name word =>
    obtain ⟨fuel, rfl⟩ : ∃ n, fuel = n + 1 := ⟨fuel - 1, by simp [tokens] at enough; omega⟩
    have isWord : Starts Kind.isIdentifier (word.val :: behind) := word.property
    have noParen := isWord.peek_ne (k := .leftParen) (by decide)
    simp only [Reads, parse, tokens, List.cons_append, List.nil_append, Parser.peek_bind]
    rw [if_neg noParen]
    exact Parser.map_done (Parser.word_cons word _) _
  | tuple opening elements closing ih =>
    simp only [tokens, List.cons_append, List.length_cons, List.length_append] at enough
    obtain ⟨fuel, rfl⟩ : ∃ n, fuel = n + 1 := ⟨fuel - 1, by omega⟩
    have inner : Reads (parse fuel .elements) tokens elements (closing.val :: behind) :=
      ih (by simp only [rank]; omega) fun _ => starts_cons.mpr closing.property
    simp only [Reads, parse, tokens, List.cons_append, List.append_assoc, List.nil_append,
      Parser.peek_bind]
    rw [if_pos (by simp [opening.kind_eq]), Parser.bind_done (Parser.token_cons opening _),
      Parser.bind_done inner, Parser.bind_done (Parser.token_cons closing _)]
    rfl
  | none =>
    obtain ⟨fuel, rfl⟩ : ∃ n, fuel = n + 1 := ⟨fuel - 1, by simp [rank] at enough; omega⟩
    have closing : (behind.head?.map Token.kind == Option.some .rightParen) = true := by
      have front := ends (by decide)
      cases behind with
      | nil => cases front
      | cons t ts => simpa using front
    simp only [Reads, parse, tokens, List.nil_append, Parser.peek_bind]
    rw [if_pos closing]
    rfl
  | some first others ihFirst ihOthers =>
    simp only [tokens, List.length_append, rank] at enough
    have front := first.starts
    have pos := front.length_pos
    obtain ⟨fuel, rfl⟩ : ∃ n, fuel = n + 1 := ⟨fuel - 1, by omega⟩
    have here : Reads (parse fuel .whole) tokens first (others.tokens ++ behind) :=
      ihFirst (by simp only [rank]; omega) fun h => absurd rfl h
    have rest : Reads (parse fuel .more) tokens others behind :=
      ihOthers (by simp only [rank]; omega) fun _ => ends (by decide)
    have noClosing := (front.append (others.tokens ++ behind)).peek_ne (k := .rightParen)
      (by decide)
    simp only [Reads, parse, tokens, List.append_assoc, Parser.peek_bind]
    rw [if_neg noClosing, Parser.bind_done here, Parser.bind_done rest]
    rfl
  | last =>
    obtain ⟨fuel, rfl⟩ : ∃ n, fuel = n + 1 := ⟨fuel - 1, by simp [rank] at enough; omega⟩
    have noComma := (ends (by decide)).peek_ne (k := .comma) (by decide)
    simp only [Reads, parse, tokens, List.nil_append, Parser.peek_bind]
    rw [if_neg noComma]
    rfl
  | more comma pattern others ihPattern ihOthers =>
    simp only [tokens, List.cons_append, List.length_cons, List.length_append, rank] at enough
    obtain ⟨fuel, rfl⟩ : ∃ n, fuel = n + 1 := ⟨fuel - 1, by omega⟩
    have here : Reads (parse fuel .whole) tokens pattern (others.tokens ++ behind) :=
      ihPattern (by simp only [rank]; omega) fun h => absurd rfl h
    have rest : Reads (parse fuel .more) tokens others behind :=
      ihOthers (by simp only [rank]; omega) ends
    simp only [Reads, parse, tokens, List.cons_append, List.append_assoc, Parser.peek_bind]
    rw [if_pos (by simp [comma.kind_eq]), Parser.bind_done (Parser.token_cons comma _),
      Parser.bind_done here, Parser.bind_done rest]
    rfl

end PatternTree

/-- The kinds behind one of the phrases of a declaration that have commas between them. -/
def endsPhrase (k : Kind) : Bool := k == .comma || endsDeclaration k

namespace Binding

theorem reads (b : Binding) {fuel : Nat} {behind : List Token}
    (enough : 8 * b.tokens.length ≤ fuel) (settled : b.forest.Settled behind)
    (ahead : Ahead endsPhrase behind) : Reads (Binding.parse fuel) tokens b behind := by
  cases b with
  | plain pattern clause initializer observers =>
    simp only [tokens, List.length_append] at enough
    simp only [forest, Forest.settled_append] at settled
    have block : Reads (Group.parse? .observer fuel) (optionTokens Group.tokens) observers
        behind := Group.reads? (by omega) (ahead.stops (by decide))
    have value : Reads (Initializer.parse? fuel) (optionTokens Initializer.tokens) initializer
        (optionTokens Group.tokens observers ++ behind) :=
      Initializer.reads? (r := .initializer) (by decide) (by omega) (by simpa using settled.2.2.1)
        (stops_option (fun g _ => g.starts) (by decide) (ahead.stops (by decide)))
    have behindType {q : Kind → Bool} (noEqual : ∀ k : Kind, (k == .equal) = true → q k = false)
        (noObserver : ∀ k : Kind, (k == Bracket.observer.opener) = true → q k = false)
        (noEnd : ∀ k : Kind, endsPhrase k = true → q k = false) :
        Stops q (optionTokens Initializer.tokens initializer ++
          (optionTokens Group.tokens observers ++ behind)) :=
      stops_option (p := (· == .equal)) (fun i _ => i.equal.property) noEqual
        (stops_option (fun g _ => g.starts) noObserver (ahead.stops noEnd))
    have type : Reads (TypeClause.parse? fuel) (optionTokens TypeClause.tokens) clause
        (optionTokens Initializer.tokens initializer ++
          (optionTokens Group.tokens observers ++ behind)) :=
      TypeClause.reads? (by omega) (behindType (by decide) (by decide) (by decide))
    have name : Reads (PatternTree.parse fuel .whole) PatternTree.tokens pattern
        (optionTokens TypeClause.tokens clause ++ (optionTokens Initializer.tokens initializer ++
          (optionTokens Group.tokens observers ++ behind))) :=
      pattern.reads (by simp only [PatternTree.rank]; omega) fun h => absurd rfl h
    have noBrace := (behindType (q := (· == .leftBrace)) (by decide) (by decide)
      (by decide)).peek_ne (k := .leftBrace) (by decide)
    simp only [Reads, Binding.parse, tokens, List.append_assoc]
    rw [Parser.bind_done name, Parser.bind_done type, Parser.peek_bind, if_neg noBrace,
      Parser.bind_done value, Parser.bind_done block]
    rfl
  | computed pattern clause accessors =>
    simp only [tokens, List.length_append] at enough
    have front := accessors.starts.append behind
    have block : Reads (Group.parse .brace fuel) Group.tokens accessors behind :=
      accessors.reads (by omega)
    have type : Reads (TypeClause.parse? fuel) (optionTokens TypeClause.tokens) clause
        (accessors.tokens ++ behind) := TypeClause.reads? (by omega) (front.stops (by decide))
    have name : Reads (PatternTree.parse fuel .whole) PatternTree.tokens pattern
        (optionTokens TypeClause.tokens clause ++ (accessors.tokens ++ behind)) :=
      pattern.reads (by simp only [PatternTree.rank]; omega) fun h => absurd rfl h
    have brace : ((accessors.tokens ++ behind).head?.map Token.kind == some .leftBrace) = true := by
      simp [Group.tokens, accessors.opening.kind_eq, Bracket.opener]
    simp only [Reads, Binding.parse, tokens, List.append_assoc]
    rw [Parser.bind_done name, Parser.bind_done type, Parser.peek_bind, if_pos brace]
    exact Parser.map_done block _

end Binding

namespace Property

/-- The tokens of a property declaration behind its head. -/
def bodyTokens (p : Property) : List Token :=
  optionTokens (fun w => [w.val]) p.classWord ++ p.binder.val :: p.bindings.tokens Binding.tokens

theorem tokens_eq (p : Property) : p.tokens = p.head.tokens ++ p.bodyTokens := by
  simp [tokens, bodyTokens]

theorem parse_body (p : Property) {fuel : Nat} {behind : List Token}
    (enough : 8 * p.tokens.length ≤ fuel) (settled : p.forest.Settled behind)
    (ahead : Ahead endsDeclaration behind) :
    Property.parse fuel p.head (p.bodyTokens ++ behind) = .done p behind := by
  simp only [tokens, List.length_append, List.length_cons] at enough
  simp only [forest, Forest.settled_append] at settled
  have notClass : Stops (· == .classKw)
      (p.binder.val :: (p.bindings.tokens Binding.tokens ++ behind)) :=
    Starts.stops (p := Kind.isBinder) p.binder.property (by decide)
  have word : Reads (Parser.optional (· == .classKw) (Parser.token .classKw))
      (optionTokens fun w => [w.val]) p.classWord
      (p.binder.val :: (p.bindings.tokens Binding.tokens ++ behind)) :=
    .optional (fun w _ => Parser.token_cons w _) (fun w _ => w.property) fun _ => notClass
  have bindings : Reads (Parser.listed (Binding.parse fuel) fuel) (Listed.tokens Binding.tokens)
      p.bindings behind := by
    refine .listed (by omega) (by simp) settled.2.2.2 (F := Ahead endsPhrase)
      (fun b mem _ fit settled => ?_) (fun _ next => next.ahead.mono (by decide))
      (ahead.mono (by decide)) (ahead.stops (by decide))
    have := length_le_of_mem_listed Binding.tokens mem
    exact b.reads (by omega) ((Forest.settled_under (by decide) ..).mp settled) fit
  simp only [Property.parse, bodyTokens, List.append_assoc, List.cons_append]
  rw [Parser.bind_done word, Parser.bind_done (Parser.word_cons p.binder _),
    Parser.bind_done bindings]
  rfl

end Property

/-! ## Cases -/

theorem SlotSyntax.reads (s : SlotSyntax) {fuel : Nat} {behind : List Token}
    (enough : 8 * s.tokens.length + 4 ≤ fuel) (settled : s.forest.Settled behind)
    (ahead : Ahead (fun k => k == .comma || k == .rightParen) behind) :
    Reads (SlotSyntax.parse fuel) SlotSyntax.tokens s behind := by
  have behindType {q : Kind → Bool} (default : Option Initializer)
      (noEqual : ∀ k : Kind, (k == .equal) = true → q k = false)
      (noEnd : ∀ k : Kind, (k == .comma || k == .rightParen) = true → q k = false) :
      Stops q (optionTokens Initializer.tokens default ++ behind) :=
    stops_option (p := (· == .equal)) (fun i _ => i.equal.property) noEqual
      (ahead.stops noEnd)
  simp only [Reads, parse, Parser.peek_bind, Parser.peekSecond_bind]
  cases s with
  | labelled label colon type default =>
    simp only [tokens, List.length_cons, List.length_append] at enough
    simp only [forest, Forest.settled_append] at settled
    have value : Reads (Initializer.parse? fuel) (optionTokens Initializer.tokens) default
        behind :=
      Initializer.reads? (r := .payloadDefault) (by decide) (by omega) settled.2.2.2
        (ahead.stops (by decide))
    have inner : Reads (TypeSyntax.parse fuel) TypeTree.tokens type
        (optionTokens Initializer.tokens default ++ behind) :=
      TypeSyntax.reads type (by omega) (behindType default (by decide) (by decide))
    have isLabel : (some label.val.kind).any Kind.isSoftName ||
        (some label.val.kind == some .name && some colon.val.kind == some .colon) := by
      have h := label.property
      simp only [Kind.isIdentifier, Bool.or_eq_true, beq_iff_eq] at h
      simp [colon.kind_eq, h.symm]
    simp only [tokens, List.cons_append, List.append_assoc, List.head?_cons, List.tail_cons,
      Option.map_some]
    rw [if_pos isLabel, Parser.bind_done (Parser.word_cons label _),
      Parser.bind_done (Parser.token_cons colon _), Parser.bind_done inner,
      Parser.bind_done value]
    rfl
  | positional type default =>
    simp only [tokens, List.length_append] at enough
    simp only [forest, Forest.settled_append] at settled
    have value : Reads (Initializer.parse? fuel) (optionTokens Initializer.tokens) default
        behind :=
      Initializer.reads? (r := .payloadDefault) (by decide) (by omega) settled.2
        (ahead.stops (by decide))
    have stop := behindType (q := extendsType) default (by decide) (by decide)
    have inner : Reads (TypeSyntax.parse fuel) TypeTree.tokens type
        (optionTokens Initializer.tokens default ++ behind) :=
      TypeSyntax.reads type (by omega) stop
    obtain ⟨u, us, eq, noLabel⟩ := type.noLabel_whole
      ⟨stop, fun eq => absurd eq (by decide)⟩ (behindType default (by decide) (by decide))
    have noSlotLabel : ¬(((some u.kind).any Kind.isSoftName ||
        (some u.kind == some .name && us.head?.map Token.kind == some .colon)) = true) := by
      have second (name : u.kind = .name) := (noLabel.second name).peek_ne (k := .colon) (by decide)
      simpa [noLabel.front] using second
    rw [Reads, eq] at inner
    simp only [tokens, List.append_assoc, eq, List.head?_cons, List.tail_cons, Option.map_some]
    rw [if_neg noSlotLabel, Parser.bind_done inner, Parser.bind_done value]
    rfl

theorem SlotSyntax.starts (s : SlotSyntax) : Starts (· != .rightParen) s.tokens := by
  cases s with
  | labelled label => exact Starts.mono (p := Kind.isIdentifier) label.property (by decide)
  | positional type default => exact type.starts_whole.append _

theorem Listed.starts {α : Type} {p : Kind → Bool} {yield : α → List Token} (l : Listed α)
    (first : Starts p (yield l.first)) : Starts p (l.tokens yield) :=
  first.append _

theorem PayloadSyntax.reads (p : PayloadSyntax) {fuel : Nat} {behind : List Token}
    (enough : 8 * p.tokens.length ≤ fuel) (settled : p.forest.Settled behind) :
    Reads (PayloadSyntax.parse fuel) PayloadSyntax.tokens p behind := by
  simp only [tokens, List.cons_append, List.length_cons, List.length_append] at enough
  simp only [forest, Forest.settled_append] at settled
  have slots : Reads (Parser.optional (· != .rightParen)
      (Parser.listed (SlotSyntax.parse fuel) fuel))
      (optionTokens (Listed.tokens SlotSyntax.tokens)) p.slots (p.closing.val :: behind) := by
    refine .optional (fun l some => ?_) (fun l _ => l.starts l.first.starts)
      fun _ => by simp [p.closing.kind_eq]
    rw [some, optionTokens] at enough
    rw [some] at settled
    have inner : (l.forest fun s => .under .payloadElem s.forest).Settled
        (p.closing.val :: behind) := settled.2.1
    refine .listed (by omega) (by simp) inner
      (F := Ahead fun k => k == .comma || k == .rightParen) (fun s mem _ fit settled => ?_)
      (fun _ next => next.ahead.mono (by decide)) (by simp [p.closing.kind_eq])
      (by simp [p.closing.kind_eq])
    have := length_le_of_mem_listed SlotSyntax.tokens mem
    exact s.reads (by omega) ((Forest.settled_under (by decide) ..).mp settled) fit
  simp only [Reads, parse, tokens, List.cons_append, List.append_assoc, List.nil_append]
  rw [Parser.bind_done (Parser.token_cons p.opening _), Parser.bind_done slots,
    Parser.bind_done (Parser.token_cons p.closing _)]
  rfl

theorem CaseSyntax.reads (c : CaseSyntax) {fuel : Nat} {behind : List Token}
    (enough : 8 * c.tokens.length ≤ fuel) (settled : c.forest.Settled behind)
    (ahead : Ahead endsPhrase behind) : Reads (CaseSyntax.parse fuel) CaseSyntax.tokens c behind := by
  simp only [tokens, List.cons_append, List.length_cons, List.length_append] at enough
  simp only [forest, Forest.settled_append] at settled
  have value : Reads (Initializer.parse? fuel) (optionTokens Initializer.tokens) c.raw behind :=
    Initializer.reads? (r := .rawValue) (by decide) (by omega) settled.2.2
      (ahead.stops (by decide))
  have payload : Reads (Parser.optional (· == .leftParen) (PayloadSyntax.parse fuel))
      (optionTokens PayloadSyntax.tokens) c.payload
      (optionTokens Initializer.tokens c.raw ++ behind) := by
    refine .optional (fun p some => ?_) (fun p _ => p.opening.property) fun _ =>
      stops_option (p := (· == .equal)) (fun i _ => i.equal.property) (by decide)
        (ahead.stops (by decide))
    rw [some, optionTokens] at enough
    rw [some] at settled
    exact p.reads (by omega) (by simpa using (Forest.settled_under (by decide) ..).mp settled.2.1)
  simp only [Reads, parse, tokens, List.cons_append, List.append_assoc]
  rw [Parser.bind_done (Parser.word_cons c.name _), Parser.bind_done payload,
    Parser.bind_done value]
  rfl

namespace CaseGroup

/-- The tokens of a case declaration behind its head. -/
def bodyTokens (c : CaseGroup) : List Token :=
  c.keyword.val :: c.cases.tokens CaseSyntax.tokens

theorem tokens_eq (c : CaseGroup) : c.tokens = c.head.tokens ++ c.bodyTokens := rfl

theorem parse_body (c : CaseGroup) {fuel : Nat} {behind : List Token}
    (enough : 8 * c.tokens.length ≤ fuel) (settled : c.forest.Settled behind)
    (ahead : Ahead endsDeclaration behind) :
    CaseGroup.parse fuel c.head (c.bodyTokens ++ behind) = .done c behind := by
  simp only [tokens, List.length_append, List.length_cons] at enough
  simp only [forest, Forest.settled_append] at settled
  have cases : Reads (Parser.listed (CaseSyntax.parse fuel) fuel)
      (Listed.tokens CaseSyntax.tokens) c.cases behind := by
    refine .listed (by omega) (by simp) settled.2.2 (F := Ahead endsPhrase)
      (fun s mem _ fit settled => ?_) (fun _ next => next.ahead.mono (by decide))
      (ahead.mono (by decide)) (ahead.stops (by decide))
    have := length_le_of_mem_listed CaseSyntax.tokens mem
    exact s.reads (by omega) ((Forest.settled_under (by decide) ..).mp settled) fit
  simp only [CaseGroup.parse, bodyTokens, List.cons_append]
  rw [Parser.bind_done (Parser.token_cons c.keyword _), Parser.bind_done cases]
  rfl

end CaseGroup

/-! ## Leaves -/

/-- The words that open a declaration behind its head. -/
def isKeyword (k : Kind) : Bool :=
  match Form.of (some k) none with
  | .impossible => false
  | _ => true

theorem starts_of_keyword {k : Kind} (w : Tok k) (ts : List Token) (h : isKeyword k = true) :
    Starts isKeyword (w.val :: ts) := by
  simpa [w.kind_eq] using h

namespace Leaf

/-- The head of a leaf, which only a directive has not. -/
def head? : Leaf → Option Head
  | directive _ => none
  | property p => p.head
  | cases c => c.head
  | function head .. => head
  | constructor head .. => head
  | destructor head .. => head
  | subscript head .. => head
  | typeAlias head .. => head
  | importing head .. => head

/-- The tokens of a leaf behind its head. -/
def bodyTokens : Leaf → List Token
  | directive line => [line.val]
  | property p => p.bodyTokens
  | cases c => c.bodyTokens
  | function _ classWord keyword name signature body =>
    optionTokens (fun w => [w.val]) classWord ++ keyword.val :: name.val ::
      (Signature.tokens signature ++ optionTokens Group.tokens body)
  | constructor _ keyword signature body =>
    keyword.val :: (Signature.tokens signature ++ optionTokens Group.tokens body)
  | destructor _ keyword body => keyword.val :: optionTokens Group.tokens body
  | subscript _ keyword signature body =>
    keyword.val :: (Signature.tokens signature ++ optionTokens Group.tokens body)
  | typeAlias _ keyword name signature => keyword.val :: name.val :: Signature.tokens signature
  | importing _ keyword what name path =>
    keyword.val :: (optionTokens (fun w => [w.val]) what ++ name.val :: pathTokens path)

theorem tokens_eq (l : Leaf) : l.tokens = optionTokens Head.tokens l.head? ++ l.bodyTokens := by
  cases l <;> simp [tokens, bodyTokens, head?, optionTokens, Property.tokens_eq,
    CaseGroup.tokens_eq]

theorem starts_body {l : Leaf} {head : Head} (h : l.head? = some head) :
    Starts isKeyword l.bodyTokens := by
  cases l with
  | directive line => cases h
  | property p =>
    cases word : p.classWord with
    | none =>
      simp only [bodyTokens, Property.bodyTokens, word, optionTokens, List.nil_append]
      exact Starts.mono (p := Kind.isBinder) p.binder.property (by decide)
    | some w =>
      simp only [bodyTokens, Property.bodyTokens, word, optionTokens, List.cons_append]
      exact starts_of_keyword w _ (by decide)
  | cases c => exact starts_of_keyword c.keyword _ (by decide)
  | function head classWord keyword =>
    cases classWord with
    | none => exact starts_of_keyword keyword _ (by decide)
    | some w => exact starts_of_keyword w _ (by decide)
  | constructor head keyword => exact starts_of_keyword keyword _ (by decide)
  | destructor head keyword => exact starts_of_keyword keyword _ (by decide)
  | subscript head keyword => exact starts_of_keyword keyword _ (by decide)
  | typeAlias head keyword =>
    exact Starts.mono (p := Kind.isAliasWord) keyword.property (by decide)
  | importing head keyword => exact starts_of_keyword keyword _ (by decide)

end Leaf

/-- The form of a leaf is known behind its head, and the parser of that form comes to it. -/
def Leaf.IsRead (l : Leaf) (head : Head) (fuel : Nat) (behind : List Token) : Prop :=
  ∃ parse, Form.of ((l.bodyTokens ++ behind).head?.map Token.kind)
      ((l.bodyTokens ++ behind).tail.head?.map Token.kind) = .leaf parse ∧
    parse fuel head (l.bodyTokens ++ behind) = .done l behind

namespace Leaf

theorem reads_body {body : Option (Group .brace)} {fuel : Nat} {behind : List Token}
    (enough : (optionTokens Group.tokens body).length ≤ fuel)
    (ahead : Ahead endsDeclaration behind) :
    Reads (parseBody? fuel) (optionTokens Group.tokens) body behind :=
  Group.reads? enough (ahead.stops (by decide))

theorem reads_signature {signature : Signature} (body : Option (Group .brace)) {fuel : Nat}
    {behind : List Token} (enough : (Signature.tokens signature).length ≤ fuel)
    (ahead : Ahead endsDeclaration behind) :
    Reads (Signature.parse fuel) Signature.tokens signature
      (optionTokens Group.tokens body ++ behind) :=
  Atom.reads_many noOpener_signature signature enough
    (stops_option (fun g _ => g.starts) (by decide) (ahead.stops (by decide)))

theorem isRead_property (p : Property) {fuel : Nat} {behind : List Token}
    (enough : 8 * p.tokens.length ≤ fuel) (settled : p.forest.Settled behind)
    (ahead : Ahead endsDeclaration behind) : (property p).IsRead p.head fuel behind := by
  have binders : ∀ k : Kind, k.isBinder = true → k = .letKw ∨ k = .varKw := by decide
  refine ⟨fun n h => property <$> Property.parse n h, ?_,
    Parser.map_done (p.parse_body enough settled ahead) _⟩
  cases word : p.classWord with
  | none =>
    simp only [bodyTokens, Property.bodyTokens, word, optionTokens, List.nil_append,
      List.cons_append, List.head?_cons, Option.map_some]
    rcases binders _ p.binder.property with eq | eq <;> rw [eq] <;> rfl
  | some w =>
    simp only [bodyTokens, Property.bodyTokens, word, optionTokens, List.nil_append,
      List.cons_append, List.head?_cons, List.tail_cons, Option.map_some, w.kind_eq]
    rcases binders _ p.binder.property with eq | eq <;> rw [eq] <;> rfl

theorem isRead_cases (c : CaseGroup) {fuel : Nat} {behind : List Token}
    (enough : 8 * c.tokens.length ≤ fuel) (settled : c.forest.Settled behind)
    (ahead : Ahead endsDeclaration behind) : (cases c).IsRead c.head fuel behind := by
  refine ⟨fun n h => cases <$> CaseGroup.parse n h, ?_,
    Parser.map_done (c.parse_body enough settled ahead) _⟩
  simp only [bodyTokens, CaseGroup.bodyTokens, List.cons_append, List.head?_cons, Option.map_some,
    c.keyword.kind_eq]
  rfl

theorem isRead_function (head : Head) (classWord : Option (Tok .classKw)) (keyword : Tok .funcKw)
    (name : Word Kind.isFunctionName) (signature : Signature) (body : Option (Group .brace))
    {fuel : Nat} {behind : List Token}
    (enough : (function head classWord keyword name signature body).tokens.length ≤ fuel)
    (ahead : Ahead endsDeclaration behind) :
    (function head classWord keyword name signature body).IsRead head fuel behind := by
  simp only [tokens, List.cons_append, List.append_assoc, List.length_append, List.length_cons]
    at enough
  have word : Reads (Parser.optional (· == .classKw) (Parser.token .classKw))
      (optionTokens fun w => [w.val]) classWord (keyword.val :: name.val ::
        (Signature.tokens signature ++ (optionTokens Group.tokens body ++ behind))) :=
    .optional (fun w _ => Parser.token_cons w _) (fun w _ => w.property)
      fun _ => by simp [keyword.kind_eq]
  have atoms : Reads (Signature.parse fuel) Signature.tokens signature
      (optionTokens Group.tokens body ++ behind) := reads_signature body (by omega) ahead
  have block : Reads (parseBody? fuel) (optionTokens Group.tokens) body behind :=
    reads_body (by omega) ahead
  refine ⟨parseFunction, ?_, ?_⟩
  · cases classWord with
    | none => simp [bodyTokens, optionTokens, keyword.kind_eq, Form.of]
    | some w => simp [bodyTokens, optionTokens, w.kind_eq, keyword.kind_eq, Form.of]
  · simp only [parseFunction, bodyTokens, List.append_assoc, List.cons_append]
    rw [Parser.bind_done word, Parser.bind_done (Parser.token_cons keyword _),
      Parser.bind_done (Parser.word_cons name _), Parser.bind_done atoms, Parser.bind_done block]
    rfl

theorem isRead_constructor (head : Head) (keyword : Tok .initKw) (signature : Signature)
    (body : Option (Group .brace)) {fuel : Nat} {behind : List Token}
    (enough : (constructor head keyword signature body).tokens.length ≤ fuel)
    (ahead : Ahead endsDeclaration behind) :
    (constructor head keyword signature body).IsRead head fuel behind := by
  simp only [tokens, List.cons_append, List.append_assoc, List.length_append, List.length_cons]
    at enough
  have atoms : Reads (Signature.parse fuel) Signature.tokens signature
      (optionTokens Group.tokens body ++ behind) := reads_signature body (by omega) ahead
  have block : Reads (parseBody? fuel) (optionTokens Group.tokens) body behind :=
    reads_body (by omega) ahead
  refine ⟨parseConstructor, by simp [bodyTokens, keyword.kind_eq, Form.of], ?_⟩
  simp only [parseConstructor, bodyTokens, List.append_assoc, List.cons_append]
  rw [Parser.bind_done (Parser.token_cons keyword _), Parser.bind_done atoms,
    Parser.bind_done block]
  rfl

theorem isRead_destructor (head : Head) (keyword : Tok .deinitKw) (body : Option (Group .brace))
    {fuel : Nat} {behind : List Token}
    (enough : (destructor head keyword body).tokens.length ≤ fuel)
    (ahead : Ahead endsDeclaration behind) :
    (destructor head keyword body).IsRead head fuel behind := by
  simp only [tokens, List.length_append, List.length_cons] at enough
  have block : Reads (parseBody? fuel) (optionTokens Group.tokens) body behind :=
    reads_body (by omega) ahead
  refine ⟨parseDestructor, by simp [bodyTokens, keyword.kind_eq, Form.of], ?_⟩
  simp only [parseDestructor, bodyTokens, List.cons_append]
  rw [Parser.bind_done (Parser.token_cons keyword _), Parser.bind_done block]
  rfl

theorem isRead_subscript (head : Head) (keyword : Tok .subscriptKw) (signature : Signature)
    (body : Option (Group .brace)) {fuel : Nat} {behind : List Token}
    (enough : (subscript head keyword signature body).tokens.length ≤ fuel)
    (ahead : Ahead endsDeclaration behind) :
    (subscript head keyword signature body).IsRead head fuel behind := by
  simp only [tokens, List.cons_append, List.append_assoc, List.length_append, List.length_cons]
    at enough
  have atoms : Reads (Signature.parse fuel) Signature.tokens signature
      (optionTokens Group.tokens body ++ behind) := reads_signature body (by omega) ahead
  have block : Reads (parseBody? fuel) (optionTokens Group.tokens) body behind :=
    reads_body (by omega) ahead
  refine ⟨parseSubscript, by simp [bodyTokens, keyword.kind_eq, Form.of], ?_⟩
  simp only [parseSubscript, bodyTokens, List.append_assoc, List.cons_append]
  rw [Parser.bind_done (Parser.token_cons keyword _), Parser.bind_done atoms,
    Parser.bind_done block]
  rfl

theorem isRead_alias (head : Head) (keyword : Word Kind.isAliasWord) (name : Tok .name)
    (signature : Signature) {fuel : Nat} {behind : List Token}
    (enough : (typeAlias head keyword name signature).tokens.length ≤ fuel)
    (ahead : Ahead endsDeclaration behind) :
    (typeAlias head keyword name signature).IsRead head fuel behind := by
  have words : ∀ k : Kind, k.isAliasWord = true → k = .typealiasKw ∨ k = .associatedtypeKw := by
    decide
  simp only [tokens, List.length_append, List.length_cons] at enough
  have atoms : Reads (Signature.parse fuel) Signature.tokens signature behind :=
    reads_signature none (by omega) ahead
  refine ⟨parseAlias, ?_, ?_⟩
  · simp only [bodyTokens, List.cons_append, List.head?_cons, Option.map_some]
    rcases words _ keyword.property with eq | eq <;> rw [eq] <;> rfl
  · simp only [parseAlias, bodyTokens, List.cons_append]
    rw [Parser.bind_done (Parser.word_cons keyword _), Parser.bind_done (Parser.token_cons name _),
      Parser.bind_done atoms]
    rfl

theorem isRead_import (head : Head) (keyword : Tok .importKw)
    (what : Option (Word Kind.isImportWord)) (name : Tok .name)
    (path : List (Tok .dot × Word Kind.isIdentifier)) {fuel : Nat} {behind : List Token}
    (enough : (importing head keyword what name path).tokens.length ≤ fuel)
    (ahead : Ahead endsDeclaration behind) :
    (importing head keyword what name path).IsRead head fuel behind := by
  simp only [tokens, List.cons_append, List.append_assoc, List.length_append, List.length_cons]
    at enough
  have word : Reads (Parser.optional Kind.isImportWord (Parser.word Kind.isImportWord))
      (optionTokens fun w => [w.val]) what (name.val :: (pathTokens path ++ behind)) :=
    .optional (fun w _ => Parser.word_cons w _) (fun w _ => w.property)
      fun _ => by simp [name.kind_eq, Kind.isImportWord]
  have steps : Reads (Parser.many (· == .dot) (do
        let dot ← Parser.token .dot
        let word ← Parser.word Kind.isIdentifier
        pure (dot, word)) fuel) pathTokens path behind := by
    refine .many (show (pathTokens path).length ≤ fuel by omega) (each_of_forall ?_)
      (fun step _ => step.1.property)
      (ahead.stops (by decide))
    rintro ⟨dot, word⟩ - ts
    simp only [Reads, List.cons_append, List.nil_append]
    rw [Parser.bind_done (Parser.token_cons dot _), Parser.bind_done (Parser.word_cons word _)]
    rfl
  refine ⟨parseImport, by simp [bodyTokens, keyword.kind_eq, Form.of], ?_⟩
  simp only [parseImport, bodyTokens, List.append_assoc, List.cons_append]
  rw [Parser.bind_done (Parser.token_cons keyword _), Parser.bind_done word,
    Parser.bind_done (Parser.token_cons name _), Parser.bind_done steps]
  rfl

/-- Every leaf with a head is read from behind it. -/
theorem isRead {l : Leaf} {head : Head} (has : l.head? = some head) {fuel : Nat}
    {behind : List Token} (enough : 8 * l.tokens.length ≤ fuel) (settled : l.forest.Settled behind)
    (ahead : Ahead endsDeclaration behind) : l.IsRead head fuel behind := by
  cases l <;> cases has
  case property p => exact isRead_property p enough settled ahead
  case cases c => exact isRead_cases c enough settled ahead
  case function => exact isRead_function _ _ _ _ _ _ (by omega) ahead
  case constructor => exact isRead_constructor _ _ _ _ (by omega) ahead
  case destructor => exact isRead_destructor _ _ _ (by omega) ahead
  case subscript => exact isRead_subscript _ _ _ _ (by omega) ahead
  case typeAlias => exact isRead_alias _ _ _ _ (by omega) ahead
  case importing => exact isRead_import _ _ _ _ _ (by omega) ahead

end Leaf

/-! ## Rows -/

/-- What is behind a row: nothing, or the brace that closes it. -/
abbrev EndsRow (behind : List Token) : Prop := Ahead (· == .rightBrace) behind

/-- The words that a declaration other than a directive may start with. -/
def opensDeclaration (k : Kind) : Bool := k == .atSign || k.isModifier || isKeyword k

theorem starts_declaration (head : Head) {body : List Token} (keyword : Starts isKeyword body) :
    Starts opensDeclaration (head.tokens ++ body) := by
  obtain ⟨attributes, modifiers⟩ := head
  cases attributes with
  | cons a as => exact ((((a.starts.append _).append _).append _).mono (by decide))
  | nil =>
    cases modifiers with
    | cons m ms => exact (((m.starts.append _).append _).mono (by decide))
    | nil => exact keyword.mono (by decide)

theorem Header.starts_bodyTokens (h : Header) : Starts isKeyword h.bodyTokens := by
  cases h with
  | structured head keyword =>
    exact Starts.mono (p := Kind.isStructuredNominal) keyword.property (by decide)
  | loose head keyword => exact Starts.mono (p := Kind.isLooseNominal) keyword.property (by decide)

theorem Header.starts (h : Header) : Starts opensDeclaration h.tokens := by
  rw [h.tokens_eq]
  exact starts_declaration h.head h.starts_bodyTokens

theorem Leaf.starts (l : Leaf) :
    Starts (fun k => opensDeclaration k || k == .directive) l.tokens := by
  rw [l.tokens_eq]
  cases has : l.head? with
  | none =>
    cases l <;> cases has
    next line => simp [bodyTokens, optionTokens, line.kind_eq]
  | some head =>
    exact (starts_declaration head (Leaf.starts_body has)).mono (by decide)

/-- The form of a type declaration is known behind its head, and the parser of that form comes to
its header. -/
theorem Header.isRead (h : Header) {block : Forest} {fuel : Nat} {behind after : List Token}
    (enough : 8 * h.tokens.length ≤ fuel) (settled : (h.forest block).Settled after)
    (eq : behind = block.tokens ++ after) (brace : Starts (· == .leftBrace) behind) :
    (Form.of ((h.bodyTokens ++ behind).head?.map Token.kind)
        ((h.bodyTokens ++ behind).tail.head?.map Token.kind) = .structured ∧
      parseStructured fuel h.head (h.bodyTokens ++ behind) = .done h behind) ∨
    (Form.of ((h.bodyTokens ++ behind).head?.map Token.kind)
        ((h.bodyTokens ++ behind).tail.head?.map Token.kind) = .loose ∧
      parseLoose fuel h.head (h.bodyTokens ++ behind) = .done h behind) := by
  cases h with
  | structured head keyword name generics inheritance requirements =>
    refine .inl ⟨?_, parse_structured enough settled eq brace⟩
    have words : ∀ k : Kind, k.isStructuredNominal = true →
        k = .structKw ∨ k = .classKw ∨ k = .enumKw ∨ k = .actorKw := by decide
    simp only [bodyTokens, List.cons_append, List.head?_cons, List.tail_cons, Option.map_some,
      name.kind_eq]
    rcases words _ keyword.property with eq | eq | eq | eq <;> rw [eq] <;> rfl
  | loose head keyword name atoms =>
    refine .inr ⟨?_, parse_loose (Nat.le_trans (Nat.le_mul_of_pos_left _ (by decide)) enough)
      brace⟩
    have words : ∀ k : Kind, k.isLooseNominal = true → k = .protocolKw ∨ k = .extensionKw := by
      decide
    simp only [bodyTokens, List.cons_append, List.head?_cons, List.tail_cons, Option.map_some,
      name.kind_eq]
    rcases words _ keyword.property with eq | eq <;> rw [eq] <;> rfl

namespace Items

theorem ahead_tokens (i : Items) {behind : List Token} (ends : EndsRow behind) :
    Ahead endsDeclaration (i.tokens ++ behind) := by
  cases i with
  | nil => exact ends.mono (by decide)
  | semicolon mark rest => simp [tokens, mark.kind_eq, endsDeclaration]
  | leaf l rest => exact ((l.starts.append _).append _).ahead.mono (by decide)
  | nominal header opening members closing rest =>
    exact (((header.starts.append _).append _).append _).ahead.mono (by decide)

/-- A declaration is read by the parser of declarations. -/
theorem parse_of_keyword {head : Head} {body : List Token} (keyword : Starts isKeyword body)
    (fuel : Nat) :
    parse (fuel + 1) (head.tokens ++ body) =
      parseDeclaration (parse fuel) fuel (head.tokens ++ body) := by
  have opens : ∀ k : Kind, opensDeclaration k = true →
      startsDeclaration k = true ∧ k ≠ .semicolon ∧ k ≠ .directive := by decide
  have front := starts_declaration head keyword
  cases eq : head.tokens ++ body with
  | nil => simp [eq, Starts] at front
  | cons t ts =>
    rw [eq] at front
    obtain ⟨starts, noMark, noLine⟩ := opens _ (starts_cons.mp front)
    simp only [parse, Parser.peek_bind, List.head?_cons, Option.map_some]
    cases kind : t.kind <;> simp_all

/-- The declaration at the front of a settled row is settled. -/
theorem settled_below {r : Rule} {below : Forest} {rest : Items} {behind : List Token}
    (settled : (Forest.node r (.under .decl below) rest.forest).Settled behind)
    (h : Rule.decl ≠ .exprAtom) : below.Settled (rest.tokens ++ behind) := by
  have here := (Forest.settled_under h ..).mp settled.2.1
  rwa [rest.tokens_forest] at here

/-- A leaf with a head is read, and the row behind it. -/
theorem reads_leaf {l : Leaf} {rest : Items} {head : Head} {fuel : Nat} {behind : List Token}
    (has : l.head? = some head) (enough : head.tokens.length ≤ fuel)
    (isRead : l.IsRead head fuel (rest.tokens ++ behind))
    (others : Reads (parse fuel) tokens rest behind) :
    Reads (parse (fuel + 1)) tokens (.leaf l rest) behind := by
  obtain ⟨parse, form, read⟩ := isRead
  have front := (Leaf.starts_body has).append (rest.tokens ++ behind)
  have readHead := head.reads enough (front.stops (q := extendsHead) (by decide))
  simp only [Reads, tokens, l.tokens_eq, has, optionTokens, List.append_assoc]
  rw [parse_of_keyword front, parseDeclaration, Parser.bind_done readHead, Parser.peek_bind,
    Parser.peekSecond_bind]
  simp only [form]
  rw [Parser.bind_done read, Parser.bind_done others]
  rfl

theorem reads_nominal (header : Header) (opening : Tok .leftBrace) {members : Items}
    (closing : Tok .rightBrace) {rest : Items} {fuel : Nat} {behind : List Token}
    (inner : Reads (parse fuel) tokens members (closing.val :: (rest.tokens ++ behind)))
    (others : Reads (parse fuel) tokens rest behind) :
    parseNominal (parse fuel) header
        (opening.val :: (members.tokens ++ closing.val :: (rest.tokens ++ behind))) =
      .done (nominal header opening members closing rest) behind := by
  rw [parseNominal, Parser.bind_done (Parser.token_cons opening _), Parser.bind_done inner,
    Parser.bind_done (Parser.token_cons closing _), Parser.bind_done others]
  rfl

/-- A type declaration is read, and the row behind it. -/
theorem reads_declaration {header : Header} {opening : Tok .leftBrace} {members : Items}
    {closing : Tok .rightBrace} {rest : Items} {fuel : Nat} {behind : List Token}
    (enough : 8 * (nominal header opening members closing rest).tokens.length ≤ fuel)
    (settled : (nominal header opening members closing rest).forest.Settled behind)
    (inner : Reads (parse fuel) tokens members (closing.val :: (rest.tokens ++ behind)))
    (others : Reads (parse fuel) tokens rest behind) :
    Reads (parse (fuel + 1)) tokens (nominal header opening members closing rest) behind := by
  simp only [tokens, List.length_append, List.length_cons] at enough
  have front := header.starts_bodyTokens.append
    (opening.val :: (members.tokens ++ closing.val :: (rest.tokens ++ behind)))
  have headEnough : header.head.tokens.length ≤ fuel := by
    rw [header.tokens_eq, List.length_append] at enough
    omega
  have readHead := header.head.reads headEnough (front.stops (q := extendsHead) (by decide))
  have body := reads_nominal header opening closing inner others
  have settledHeader : (header.forest (.under .memberBlock (.ofToken opening.val ++
      (members.forest ++ .ofToken closing.val)))).Settled (rest.tokens ++ behind) := by
    have below := settled_below settled (by decide)
    exact (Forest.settled_under (nominalRule_ne_exprAtom _) ..).mp below
  have headerEnough : 8 * header.tokens.length ≤ fuel := by omega
  have read := header.isRead headerEnough settledHeader
    (show opening.val :: (members.tokens ++ closing.val :: (rest.tokens ++ behind)) = _ by simp)
    (starts_cons.mpr opening.property)
  simp only [Reads, tokens, header.tokens_eq, List.append_assoc, List.cons_append]
  rw [parse_of_keyword front, parseDeclaration, Parser.bind_done readHead, Parser.peek_bind,
    Parser.peekSecond_bind]
  rcases read with ⟨form, read⟩ | ⟨form, read⟩
  · simp only [form]
    rw [Parser.bind_done read]
    exact body
  · simp only [form]
    rw [Parser.bind_done read]
    exact body

/-- Every row is read. -/
theorem reads (i : Items) {fuel : Nat} {behind : List Token}
    (enough : 8 * i.tokens.length + 1 ≤ fuel) (settled : i.forest.Settled behind)
    (ends : EndsRow behind) : Reads (parse fuel) tokens i behind := by
  induction i generalizing fuel behind with
  | nil =>
    obtain ⟨fuel, rfl⟩ : ∃ n, fuel = n + 1 := ⟨fuel - 1, by omega⟩
    cases behind with
    | nil => rfl
    | cons t ts =>
      have brace : t.kind = .rightBrace := by simpa using ends
      simp only [Reads, parse, tokens, List.nil_append, Parser.peek_bind, List.head?_cons,
        Option.map_some, brace]
      rfl
  | semicolon mark rest ih =>
    obtain ⟨fuel, rfl⟩ : ∃ n, fuel = n + 1 := ⟨fuel - 1, by omega⟩
    simp only [tokens, List.length_cons] at enough
    have others : Reads (parse fuel) tokens rest behind := ih (by omega) settled.2.2 ends
    simp only [Reads, parse, tokens, List.cons_append, Parser.peek_bind, List.head?_cons,
      Option.map_some, mark.kind_eq]
    rw [Parser.bind_done (Parser.token_cons mark _), Parser.bind_done others]
    rfl
  | leaf l rest ih =>
    obtain ⟨fuel, rfl⟩ : ∃ n, fuel = n + 1 := ⟨fuel - 1, by omega⟩
    have pos := l.starts.length_pos
    simp only [tokens, List.length_append] at enough
    have others : Reads (parse fuel) tokens rest behind := ih (by omega) settled.2.2 ends
    have ahead := rest.ahead_tokens ends
    cases has : l.head? with
    | none =>
      cases l <;> cases has
      next line =>
        simp only [Reads, parse, tokens, Leaf.tokens, List.cons_append, List.nil_append,
          Parser.peek_bind, List.head?_cons, Option.map_some, line.kind_eq]
        rw [Parser.bind_done (Parser.token_cons line _), Parser.bind_done others]
        rfl
    | some head =>
      have settledLeaf : l.forest.Settled (rest.tokens ++ behind) :=
        (Forest.settled_under l.rule_ne_exprAtom ..).mp (settled_below settled (by decide))
      have headEnough : head.tokens.length ≤ l.tokens.length := by
        simp [l.tokens_eq, has, optionTokens]
      exact reads_leaf has (by omega) (Leaf.isRead has (by omega) settledLeaf ahead) others
  | nominal header opening members closing rest ihMembers ihRest =>
    obtain ⟨fuel, rfl⟩ : ∃ n, fuel = n + 1 := ⟨fuel - 1, by omega⟩
    simp only [tokens, List.length_append, List.length_cons] at enough
    have settledMembers : members.forest.Settled (closing.val :: (rest.tokens ++ behind)) := by
      have below := (Forest.settled_under (nominalRule_ne_exprAtom _) ..).mp
        (settled_below settled (by decide))
      have block := (Forest.settled_under (by decide) ..).mp (Header.settled_block below)
      exact ((Forest.settled_append ..).mp ((Forest.settled_append ..).mp block).2).1
    have inner : Reads (parse fuel) tokens members (closing.val :: (rest.tokens ++ behind)) :=
      ihMembers (by omega) settledMembers (ahead_cons.mpr closing.property)
    have others : Reads (parse fuel) tokens rest behind := ihRest (by omega) settled.2.2 ends
    exact reads_declaration (by simp [tokens]; omega) settled inner others

end Items

end Conformance.Grammar
