import Conformance.Declaration.OfSyntax
import Conformance.Proofs.Grammar.Nesting
import Conformance.Proofs.Grammar.Settled
import Conformance.Proofs.Token.Alone
import Mathlib.Data.List.Induction

/-!
# Phrases from lexemes

The lexemes of a text settle its tokens up to places and layout, so they settle the phrases
that these tokens make up.  `Fits yield ls sees` says that whatever tokens begin with the
lexemes `ls`, they begin with a phrase that has just these, and of which `sees` holds.

The phrases here are those of generated code: groups and signatures, functions, initializers
and computed properties, and rows of cases.  A group asks for no more than level lexemes
(`fits_group`).
-/

namespace Conformance.Grammar

/-- Tokens have the kinds and texts of some lexemes. -/
def Faced (ts : List Token) (ls : List Lexeme) : Prop := ts.map Token.face = faces ls

/-- Tokens that begin with some lexemes begin with a phrase of which something holds. -/
def Fits {α : Type} (yield : α → List Token) (ls : List Lexeme) (sees : α → Prop) : Prop :=
  ∀ ts ms, Faced ts (ls ++ ms) → ∃ a us, ts = yield a ++ us ∧ Faced us ms ∧ sees a

/-- No lexeme at the front opens an observer. -/
def IsMild (ls : List Lexeme) : Prop := ∀ l ∈ ls.head?, l.opensObserver = false

/-! ## Single tokens -/

section
variable {ls ms : List Lexeme} {l : Lexeme} {ts : List Token}

theorem Faced.exists_cons (h : Faced ts (l :: ls)) (mild : l.kind = .leftBrace → IsMild ls) :
    ∃ t us, ts = t :: us ∧ t.kind = l.kind ∧ t.text = l.text ∧ Faced us ls := by
  cases ts with
  | nil => cases h
  | cons t us =>
    obtain ⟨face, others⟩ := List.cons.inj h
    have kind : t.kind = if l.kind == .leftBrace && ls.head?.any Lexeme.opensObserver then
        .observerBrace else l.kind := congrArg Prod.fst face
    refine ⟨t, us, rfl, ?_, congrArg Prod.snd face, others⟩
    split at kind
    next opens =>
      obtain ⟨brace, observer⟩ := Bool.and_eq_true_iff.mp opens
      cases head : ls.head? with
      | none =>
        rw [head] at observer
        cases observer
      | some m =>
        rw [head] at observer
        exact absurd observer (by simp [mild (eq_of_beq brace) m head])
    next => exact kind

theorem fits_word {p : Kind → Bool} (is : p l.kind = true) (brace : p .leftBrace = false) :
    Fits (fun w : Word p => [w.val]) [l] fun w => w.val.kind = l.kind ∧ w.text = l.text := by
  have closed : l.kind ≠ .leftBrace := by
    intro opens
    rw [opens, brace] at is
    cases is
  intro ts ms h
  obtain ⟨t, us, rfl, kind, text, others⟩ := h.exists_cons fun opens => absurd opens closed
  exact ⟨⟨t, by rw [kind, is]⟩, us, rfl, others, kind, text⟩

theorem fits_tok {k : Kind} {s : String} (brace : k ≠ .leftBrace) :
    Fits (fun w : Tok k => [w.val]) [⟨k, s⟩] fun w => w.text = s := by
  intro ts ms h
  obtain ⟨w, us, whole, others, -, text⟩ :=
    fits_word (p := (· == k)) (l := ⟨k, s⟩) (beq_self_eq_true k) (beq_false_of_ne brace.symm) ts
      ms h
  exact ⟨w, us, whole, others, text⟩

end

/-! ## Groups -/

theorem map_unmarked_faces (ls : List Lexeme) :
    (faces ls).map (fun f => f.1.unmarked) = ls.map fun l => l.kind.unmarked := by
  induction ls with
  | nil => rfl
  | cons l ls ih =>
    rw [faces, List.map_cons, List.map_cons, ih]
    split
    next opens =>
      rw [eq_of_beq (Bool.and_eq_true_iff.mp opens).1]
      rfl
    next => rfl

theorem Faced.unmarked {ts : List Token} {ls : List Lexeme} (h : Faced ts ls) :
    (ts.map Token.kind).map Kind.unmarked = (ls.map Lexeme.kind).map Kind.unmarked := by
  rw [List.map_map, List.map_map]
  have same := congrArg (List.map fun f => f.1.unmarked) h
  rw [List.map_map, map_unmarked_faces] at same
  exact same

/-- Level lexemes are those of a run, whatever braces are marked. -/
theorem fits_run {body : List Lexeme} (level : IsLevel (body.map Lexeme.kind)) :
    Fits Run.tokens body fun _ => True := by
  intro ts ms h
  have kinds := congrArg (List.take body.length) h.unmarked
  rw [List.map_append, List.map_append, List.take_left' (by simp), ← List.map_take,
    ← List.map_take] at kinds
  have front : IsLevel ((ts.take body.length).map Token.kind) := by
    rw [IsLevel, ← nesting_unmarked, kinds, nesting_unmarked]
    exact level
  obtain ⟨r, run⟩ := exists_run front
  refine ⟨r, ts.drop body.length, by rw [run, List.take_append_drop], ?_, trivial⟩
  have behind := congrArg (List.drop body.length) h
  rwa [← List.map_drop, drop_faces, List.drop_left] at behind

/-- Level lexemes in brackets are those of a group. -/
theorem fits_group (b : Bracket) {body : List Lexeme} (level : IsLevel (body.map Lexeme.kind))
    {opening closing : String}
    (mild : b = .brace → IsMild (body ++ [⟨b.closer, closing⟩])) (marked : b ≠ .observer) :
    Fits (Group.tokens (b := b)) (⟨b.opener, opening⟩ :: body ++ [⟨b.closer, closing⟩])
      fun _ => True := by
  intro ts ms h
  simp only [List.cons_append, List.append_assoc, List.nil_append] at h
  have mild' : b.opener = .leftBrace → IsMild (body ++ ⟨b.closer, closing⟩ :: ms) := by
    intro brace l head
    have is : b = .brace := by cases b <;> first | rfl | cases brace
    refine mild is l ?_
    cases body with
    | nil => exact head
    | cons m body => exact head
  obtain ⟨t, us, rfl, kind, -, others⟩ := h.exists_cons mild'
  obtain ⟨r, us, rfl, others, -⟩ := fits_run level us _ others
  have closes : b.closer ≠ .leftBrace := by cases b <;> decide
  obtain ⟨c, us, rfl, others, -⟩ := fits_tok closes us ms others
  refine ⟨⟨⟨t, beq_iff_eq.mpr kind⟩, r, c⟩, us, ?_, others, trivial⟩
  simp [Group.tokens]

/-- Some lexemes in braces. -/
def braces (body : List Lexeme) : List Lexeme :=
  ⟨.leftBrace, "\x7b"⟩ :: body ++ [⟨.rightBrace, "\x7d"⟩]

theorem fits_body {body : List Lexeme} (level : IsLevel (body.map Lexeme.kind))
    (mild : IsMild body) : Fits (Group.tokens (b := .brace)) (braces body) fun _ => True := by
  refine fits_group .brace level (fun _ l head => ?_) (by decide)
  cases body with
  | nil =>
    cases head
    rfl
  | cons m body => exact mild l head

/-! ## Lists -/

section
variable {α β : Type} {yield : α → List Token} {lexemes : β → List Lexeme} {sees : β → α → Prop}

/-- Phrases with a comma in front of each. -/
theorem fits_others {bs : List β} (each : ∀ b ∈ bs, Fits yield (lexemes b) (sees b)) :
    Fits (List.flatMap fun x : Tok .comma × α => x.1.val :: yield x.2)
      (bs.flatMap fun b => ⟨.comma, ","⟩ :: lexemes b) fun xs =>
        List.Forall₂ sees bs (xs.map Prod.snd) := by
  induction bs with
  | nil => exact fun ts ms h => ⟨[], ts, rfl, h, .nil⟩
  | cons b bs ih =>
    obtain ⟨here, later⟩ := List.forall_mem_cons.mp each
    intro ts ms h
    simp only [List.flatMap_cons, List.cons_append, List.append_assoc] at h
    obtain ⟨comma, us, rfl, h, -⟩ := fits_tok (by decide) ts _ h
    obtain ⟨a, us, rfl, h, seen⟩ := here us _ h
    obtain ⟨xs, us, rfl, h, others⟩ := ih later us ms h
    exact ⟨(comma, a) :: xs, us, by simp, h, .cons seen others⟩

/-- Phrases with a comma between each two. -/
theorem fits_listed {b : β} {bs : List β}
    (each : ∀ c ∈ b :: bs, Fits yield (lexemes c) (sees c)) :
    Fits (Listed.tokens yield) (lexemes b ++ bs.flatMap fun b => ⟨.comma, ","⟩ :: lexemes b)
      fun l => List.Forall₂ sees (b :: bs) l.toList := by
  obtain ⟨here, later⟩ := List.forall_mem_cons.mp each
  intro ts ms h
  rw [List.append_assoc] at h
  obtain ⟨a, us, rfl, h, seen⟩ := here ts _ h
  obtain ⟨xs, us, rfl, h, others⟩ := fits_others later us ms h
  exact ⟨⟨a, xs⟩, us, by simp [Listed.tokens], h, .cons seen others⟩

end

/-! ## Signatures and heads -/

/-- The lexemes of signature words and of groups in parentheses. -/
inductive IsSignature : List Lexeme → Prop
  | nil : IsSignature []
  | word {l : Lexeme} {ls : List Lexeme} (is : l.kind.isSignatureWord = true)
      (more : IsSignature ls) : IsSignature (l :: ls)
  | group {body ls : List Lexeme} {opening closing : String}
      (level : IsLevel (body.map Lexeme.kind)) (more : IsSignature ls) :
      IsSignature ((⟨.leftParen, opening⟩ :: body ++ [⟨.rightParen, closing⟩]) ++ ls)

theorem fits_signature {ls : List Lexeme} (h : IsSignature ls) :
    Fits Signature.tokens ls fun _ => True := by
  induction h with
  | nil => exact fun ts ms h => ⟨[], ts, rfl, h, trivial⟩
  | @word l ls is more ih =>
    intro ts ms h
    obtain ⟨w, us, rfl, h, -⟩ := fits_word is rfl ts (ls ++ ms) h
    obtain ⟨sig, us, rfl, h, -⟩ := ih us ms h
    exact ⟨.word w :: sig, us, rfl, h, trivial⟩
  | @group body ls opening closing level more ih =>
    intro ts ms h
    rw [List.append_assoc] at h
    obtain ⟨g, us, rfl, h, -⟩ := fits_group .paren level nofun nofun ts _ h
    obtain ⟨sig, us, rfl, h, -⟩ := ih us ms h
    exact ⟨.group .paren rfl g :: sig, us, by simp [Signature.tokens, Atom.tokens], h, trivial⟩

theorem fits_head {ls : List Lexeme} (modifiers : ∀ l ∈ ls, l.kind.isModifier = true) :
    Fits Head.tokens ls fun _ => True := by
  have each : Fits (List.flatMap Modifier.tokens) ls fun _ => True := by
    induction ls with
    | nil => exact fun ts ms h => ⟨[], ts, rfl, h, trivial⟩
    | cons l ls ih =>
      intro ts ms h
      have is := modifiers l List.mem_cons_self
      obtain ⟨w, us, rfl, h, -⟩ := fits_word is rfl ts (ls ++ ms) h
      obtain ⟨more, us, rfl, h, -⟩ := ih (fun m mem => modifiers m (List.mem_cons_of_mem l mem)) us ms h
      exact ⟨.plain w :: more, us, rfl, h, trivial⟩
  intro ts ms h
  obtain ⟨more, us, rfl, h, -⟩ := each ts ms h
  exact ⟨⟨[], more⟩, us, rfl, h, trivial⟩

/-! ## Leaves -/

/-- A leaf that is settled wherever it stands. -/
def Leaf.IsFirm (l : Leaf) : Prop := ∀ behind, l.forest.Settled behind

section
variable {mods sig body : List Lexeme}

theorem fits_function (name : Lexeme) (word : String)
    (modifiers : ∀ l ∈ mods, l.kind.isModifier = true)
    (named : name.kind.isFunctionName = true) (signature : IsSignature sig)
    (level : IsLevel (body.map Lexeme.kind)) (mild : IsMild body) :
    Fits Leaf.tokens (mods ++ ⟨.funcKw, word⟩ :: name :: (sig ++ braces body)) Leaf.IsFirm := by
  intro ts ms h
  simp only [List.append_assoc, List.cons_append] at h
  obtain ⟨head, us, rfl, h, -⟩ := fits_head modifiers ts _ h
  obtain ⟨keyword, us, rfl, h, -⟩ := fits_tok (by decide) us _ h
  obtain ⟨name, us, rfl, h, -⟩ := fits_word named rfl us _ h
  obtain ⟨sig, us, rfl, h, -⟩ := fits_signature signature us _ h
  obtain ⟨body, us, rfl, h, -⟩ := fits_body level mild us ms h
  refine ⟨.function head none keyword name sig (some body), us, ?_, h, fun behind => ?_⟩
  · simp [Leaf.tokens, optionTokens]
  · exact (Leaf.derives_below (.function head none keyword name sig (some body))).settled rfl behind

theorem fits_constructor (word : String) (modifiers : ∀ l ∈ mods, l.kind.isModifier = true)
    (signature : IsSignature sig) (level : IsLevel (body.map Lexeme.kind)) (mild : IsMild body) :
    Fits Leaf.tokens (mods ++ ⟨.initKw, word⟩ :: (sig ++ braces body)) fun l =>
      (∃ d : StatelessDecl, l.declaration = .stateless d ∧ d.keyword = word ∧ d.name = none) ∧
        l.IsFirm := by
  intro ts ms h
  simp only [List.append_assoc, List.cons_append] at h
  obtain ⟨head, us, rfl, h, -⟩ := fits_head modifiers ts _ h
  obtain ⟨keyword, us, rfl, h, text⟩ := fits_tok (by decide) us _ h
  obtain ⟨sig, us, rfl, h, -⟩ := fits_signature signature us _ h
  obtain ⟨body, us, rfl, h, -⟩ := fits_body level mild us ms h
  refine ⟨.constructor head keyword sig (some body), us, ?_, h, ⟨_, rfl, text, rfl⟩, fun behind => ?_⟩
  · simp [Leaf.tokens, optionTokens]
  · exact (Leaf.derives_below (.constructor head keyword sig (some body))).settled rfl behind

/-- The type that is one name. -/
def simpleType (name : Tok .name) : TypeSyntax :=
  .composed (.marked (.named (.plain name) .pathEnd) []) .noConjunct

theorem fits_simpleType {name : String} : Fits TypeTree.tokens [⟨.name, name⟩] fun t : TypeSyntax =>
    ∃ w : Tok .name, t = simpleType w ∧ w.text = name := by
  intro ts ms h
  obtain ⟨w, us, rfl, h, text⟩ := fits_tok (by decide) ts ms h
  exact ⟨simpleType w, us, rfl, h, w, rfl, text⟩

theorem fits_property {name : Lexeme} {word colon type : String}
    (modifiers : ∀ l ∈ mods, l.kind.isModifier = true) (named : name.kind.isIdentifier = true)
    (level : IsLevel (body.map Lexeme.kind)) (mild : IsMild body) :
    Fits Leaf.tokens
      (mods ++ ⟨.varKw, word⟩ :: name :: ⟨.colon, colon⟩ :: ⟨.name, type⟩ :: braces body)
      Leaf.IsFirm := by
  intro ts ms h
  simp only [List.append_assoc, List.cons_append] at h
  have binds : Kind.varKw.isBinder = true := rfl
  obtain ⟨head, us, rfl, h, -⟩ := fits_head modifiers ts _ h
  obtain ⟨keyword, us, rfl, h, -⟩ := fits_word (l := ⟨.varKw, word⟩) binds rfl us _ h
  obtain ⟨name, us, rfl, h, -⟩ := fits_word named rfl us _ h
  obtain ⟨colon, us, rfl, h, -⟩ := fits_tok (by decide) us _ h
  obtain ⟨type, us, rfl, h, -⟩ := fits_simpleType us _ h
  obtain ⟨body, us, rfl, h, -⟩ := fits_body level mild us ms h
  let binding : Binding := .computed (.name name) (some ⟨colon, type⟩) body
  let leaf : Leaf := .property ⟨head, none, keyword, ⟨binding, []⟩⟩
  have tokens : leaf.tokens = (head.tokens ++ keyword.val :: name.val :: colon.val ::
      (type.tokens ++ body.opening.val :: body.body.tokens)) ++ [body.closing.val] := by
    simp [leaf, binding, Leaf.tokens, Property.tokens, Listed.tokens, Binding.tokens,
      PatternTree.tokens, optionTokens, TypeClause.tokens, Group.tokens]
  refine ⟨leaf, us, by simp [tokens, Group.tokens], h, Leaf.settled_of_endsOffDot fun t last => ?_⟩
  rw [Leaf.tokens_forest, tokens, List.getLast?_concat] at last
  rw [← Option.some.inj last, body.closing.kind_eq]
  decide

end

/-! ## Cases -/

/-- The lexeme of a word. -/
def wordLexeme (s : String) : Lexeme := ⟨Kind.ofWord s, s⟩

/-- The lexemes of words with commas between them. -/
def commaLexemes : List String → List Lexeme
  | [] => []
  | s :: rest => wordLexeme s :: rest.flatMap fun t => [⟨.comma, ","⟩, wordLexeme t]

/-- A case without payload and raw value. -/
def plainCase (name : String) : CaseElement := ⟨name, none, none⟩

theorem fits_case {s : String} (named : (Kind.ofWord s).isIdentifier = true) :
    Fits CaseSyntax.tokens [wordLexeme s] fun c =>
      c.element = plainCase s ∧ ∃ w : Word Kind.isIdentifier, c.tokens = [w.val] := by
  intro ts ms h
  obtain ⟨w, us, rfl, h, -, text⟩ := fits_word (l := wordLexeme s) named rfl ts ms h
  exact ⟨⟨w, none, none⟩, us, rfl, h, congrArg plainCase text, w, rfl⟩

/-- A row of plain cases. -/
theorem fits_cases {s : String} {rest : List String}
    (named : ∀ t ∈ s :: rest, (Kind.ofWord t).isIdentifier = true) {word : String} :
    Fits Leaf.tokens (⟨.caseKw, word⟩ :: commaLexemes (s :: rest)) fun l =>
      (∃ c, l = .cases c ∧ c.declaration.elements = (s :: rest).map plainCase) ∧ l.IsFirm := by
  intro ts ms h
  obtain ⟨keyword, us, rfl, h, -⟩ := fits_tok (by decide) ts _ h
  obtain ⟨cases, us, rfl, h, seen⟩ := fits_listed (fun t mem => fits_case (named t mem)) us ms h
  let group : CaseGroup := ⟨⟨[], []⟩, keyword, cases⟩
  obtain ⟨elements, words⟩ : cases.toList.map CaseSyntax.element = (s :: rest).map plainCase ∧
      ∀ c ∈ cases.toList, ∃ w : Word Kind.isIdentifier, c.tokens = [w.val] := by
    clear named
    generalize s :: rest = names, cases.toList = listed at seen
    induction seen with
    | nil => exact ⟨rfl, by simp⟩
    | cons here _ ih =>
      exact ⟨congrArg₂ List.cons here.1 ih.1, List.forall_mem_cons.mpr ⟨here.2, ih.2⟩⟩
  have tokens : (Leaf.cases group).tokens = [keyword.val] ++ cases.tokens CaseSyntax.tokens := by
    simp [Leaf.tokens, CaseGroup.tokens, Head.tokens, group]
  refine ⟨.cases group, us, by simp [tokens], h, ⟨group, rfl, elements⟩,
    Leaf.settled_of_endsOffDot fun t last => ?_⟩
  rw [Leaf.tokens_forest, tokens] at last
  rcases List.mem_append.mp (List.mem_of_getLast? last) with mem | mem
  · obtain rfl := List.mem_singleton.mp mem
    rw [keyword.kind_eq]
    decide
  · have off : ∀ k : Kind, k.isIdentifier = true → k ≠ .dot := by decide
    have word {c : CaseSyntax} (listed : c ∈ cases.toList) (mem : t ∈ c.tokens) : t.kind ≠ .dot := by
      obtain ⟨w, single⟩ := words c listed
      rw [single] at mem
      obtain rfl := List.mem_singleton.mp mem
      exact off _ w.property
    rcases List.mem_append.mp mem with first | other
    · exact word List.mem_cons_self first
    · obtain ⟨⟨comma, c⟩, listed, inside⟩ := List.mem_flatMap.mp other
      rcases List.mem_cons.mp inside with rfl | inside
      · rw [comma.kind_eq]
        decide
      · exact word (List.mem_cons_of_mem _ (List.mem_map_of_mem listed)) inside

end Conformance.Grammar
