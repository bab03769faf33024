import Conformance.Proofs.Grammar.Prompt
import Conformance.Proofs.Grammar.TypeCompleteness

/-!
# The parser of types is prompt

Part by part, with the fuel of `TypePart.rank`: each level of the tree takes one unit, and a
token of the input brings eight.

Two parts look further ahead than the next token, and in both every choice takes the tokens
in front of those that decide: a name in front of a prefixed type or a path, and the names
in front of an element of a tuple.
-/

namespace Conformance.Grammar

namespace TypeTree

theorem isKind_self (k : Kind) : (k == k) = true := beq_self_eq_true k

/-- A token of a kind. -/
def sample (k : Kind) : Tok k := ⟨⟨k, "", "", .origin, .origin⟩, isKind_self k⟩

/-- Every part can be written. -/
theorem opens_part (p : TypePart) : Opens (tokens (p := p)) [] := by
  let identifier : TypeTree .identifier := plain (sample .name)
  let primary : TypeTree .primary := named identifier pathEnd
  let whole : TypeTree .whole := composed (marked primary []) noConjunct
  cases p with
  | whole => exact ⟨whole, _, rfl⟩
  | conjuncts => exact ⟨noConjunct, _, rfl⟩
  | unit => exact ⟨marked primary [], _, rfl⟩
  | primary => exact ⟨primary, _, rfl⟩
  | path => exact ⟨pathEnd, _, rfl⟩
  | identifier => exact ⟨identifier, _, rfl⟩
  | arguments => exact ⟨noArgument, _, rfl⟩
  | elements => exact ⟨noElement, _, rfl⟩
  | element => exact ⟨unlabelled whole, _, rfl⟩
  | moreElements => exact ⟨lastElement, _, rfl⟩

/-- Parts are read promptly with so much fuel, compared with any that is enough. -/
def PromptBelow (fuel : Nat) : Prop :=
  ∀ (p : TypePart) (r : Nat) {m n fuel' : Nat}, p.rank = r → 8 * m + r ≤ fuel + 8 →
    8 * n + r ≤ fuel' + 8 → IsPrompt tokens m n (parse fuel p) (parse fuel' p)

section
variable {m n fuel fuel' : Nat}

theorem prompt_whole (ih : PromptBelow fuel) (enough : 8 * m + 4 ≤ fuel + 9)
    (enough' : 8 * n + 4 ≤ fuel' + 9) :
    IsPrompt tokens m n (parse (fuel + 1) .whole) (parse (fuel' + 1) .whole) := by
  refine .peek fun k => .ite ?attributed (.bind (ih .unit 3 rfl (by omega) (by omega)) fun unit =>
    .peek fun k => .ite ?function ?composed)
  case attributed =>
    refine .tokenThen fun sign => .tokenThen fun name => ?_
    exact .bind (ih .whole 4 rfl (by omega) (by omega)) fun type => .pure rfl
  case function =>
    refine .bind (.many (.word (k := .throwsKw) rfl) (by simp) (by omega) (by omega))
      fun effects => .tokenThen fun arrow => ?_
    exact .bind (ih .whole 4 rfl (by omega) (by omega)) fun result => .pure (by simp [tokens])
  case composed => exact .bind (ih .conjuncts 1 rfl (by omega) (by omega)) fun more => .pure rfl

theorem prompt_conjuncts (ih : PromptBelow fuel) (enough : 8 * m + 1 ≤ fuel + 9)
    (enough' : 8 * n + 1 ≤ fuel' + 9) :
    IsPrompt tokens m n (parse (fuel + 1) .conjuncts) (parse (fuel' + 1) .conjuncts) := by
  refine .peek fun k => .ite (.tokenThen fun sign => ?_) (.pure rfl)
  refine .bind (ih .unit 3 rfl (by omega) (by omega)) fun unit => ?_
  exact .bind (ih .conjuncts 1 rfl (by omega) (by omega)) fun more => .pure (by simp [tokens])

theorem prompt_unit (ih : PromptBelow fuel) (enough : 8 * m + 3 ≤ fuel + 9)
    (enough' : 8 * n + 3 ≤ fuel' + 9) :
    IsPrompt tokens m n (parse (fuel + 1) .unit) (parse (fuel' + 1) .unit) := by
  refine .bind (ih .primary 2 rfl (by omega) (by omega)) fun primary => ?_
  exact .bind (.many (.word (k := .bang) rfl) (by simp) (by omega) (by omega)) fun marks =>
    .pure (by simp [tokens])

theorem prompt_square (ih : PromptBelow fuel) (enough : 8 * m + 2 ≤ fuel + 9)
    (enough' : 8 * n + 2 ≤ fuel' + 9) :
    IsPrompt tokens m n (parseSquare (parse fuel .whole)) (parseSquare (parse fuel' .whole)) := by
  refine .tokenThen fun opening => .bind (ih .whole 4 rfl (by omega) (by omega)) fun first => ?_
  refine .peek fun k => .ite (.tokenThen fun colon => ?_) (.tokenThen fun closing => .pure ?_)
  · refine .bind (ih .whole 4 rfl (by omega) (by omega)) fun value => ?_
    exact .tokenThen fun closing => .pure (by simp [tokens])
  · simp [tokens]

theorem prompt_tuple (ih : PromptBelow fuel) (enough : 8 * m + 2 ≤ fuel + 9)
    (enough' : 8 * n + 2 ≤ fuel' + 9) :
    IsPrompt tokens m n (parseTuple (parse fuel .elements)) (parseTuple (parse fuel' .elements)) := by
  refine .tokenThen fun opening => .bind (ih .elements 6 rfl (by omega) (by omega)) fun inner => ?_
  exact .tokenThen fun closing => .pure (by simp [tokens])

theorem prompt_path (ih : PromptBelow fuel) (enough : 8 * m + 1 ≤ fuel + 9)
    (enough' : 8 * n + 1 ≤ fuel' + 9) :
    IsPrompt tokens m n (parse (fuel + 1) .path) (parse (fuel' + 1) .path) := by
  refine .peek fun k => .ite (.tokenThen fun dot => ?_) (.pure rfl)
  refine .bind (ih .identifier 1 rfl (by omega) (by omega)) fun identifier => ?_
  exact .bind (ih .path 1 rfl (by omega) (by omega)) fun path => .pure (by simp [tokens])

theorem prompt_identifier (ih : PromptBelow fuel) (enough : 8 * m + 1 ≤ fuel + 9)
    (enough' : 8 * n + 1 ≤ fuel' + 9) :
    IsPrompt tokens m n (parse (fuel + 1) .identifier) (parse (fuel' + 1) .identifier) := by
  refine .tokenThen fun name => .peek fun k => .ite (.tokenThen fun opening => ?_) (.pure rfl)
  refine .bind (ih .whole 4 rfl (by omega) (by omega)) fun first => ?_
  refine .bind (ih .arguments 1 rfl (by omega) (by omega)) fun others => ?_
  exact .tokenThen fun closing => .pure (by simp [tokens])

theorem prompt_arguments (ih : PromptBelow fuel) (enough : 8 * m + 1 ≤ fuel + 9)
    (enough' : 8 * n + 1 ≤ fuel' + 9) :
    IsPrompt tokens m n (parse (fuel + 1) .arguments) (parse (fuel' + 1) .arguments) := by
  refine .peek fun k => .ite (.tokenThen fun comma => ?_) (.pure rfl)
  refine .bind (ih .whole 4 rfl (by omega) (by omega)) fun type => ?_
  exact .bind (ih .arguments 1 rfl (by omega) (by omega)) fun others => .pure (by simp [tokens])

theorem prompt_elements (ih : PromptBelow fuel) (enough : 8 * m + 6 ≤ fuel + 9)
    (enough' : 8 * n + 6 ≤ fuel' + 9) :
    IsPrompt tokens m n (parse (fuel + 1) .elements) (parse (fuel' + 1) .elements) := by
  refine .peek fun k => .ite (.pure rfl) ?_
  refine .bind (ih .element 5 rfl (by omega) (by omega)) fun first => ?_
  exact .bind (ih .moreElements 1 rfl (by omega) (by omega)) fun others => .pure rfl

theorem prompt_moreElements (ih : PromptBelow fuel) (enough : 8 * m + 1 ≤ fuel + 9)
    (enough' : 8 * n + 1 ≤ fuel' + 9) :
    IsPrompt tokens m n (parse (fuel + 1) .moreElements) (parse (fuel' + 1) .moreElements) := by
  refine .peek fun k => .ite (.tokenThen fun comma => ?_) (.pure rfl)
  refine .bind (ih .element 5 rfl (by omega) (by omega)) fun element => ?_
  exact .bind (ih .moreElements 1 rfl (by omega) (by omega)) fun others => .pure (by simp [tokens])

/-! ## Looking ahead -/

theorem rest_primary_nil (fuel : Nat) : (parse fuel .primary []).rest = [] := by
  match fuel with
  | 0 | 1 | _ + 2 => rfl

theorem parse_identifier_stuck {t : Token} (no : (t.kind == .name) = false) (w : List Token) :
    parse fuel .identifier (t :: w) = .stuck (t :: w) := by
  cases fuel with
  | zero => rfl
  | succ fuel => exact Parser.bind_stuck (Parser.word_stuck no w) _

theorem prompt_named (ih : PromptBelow fuel) (enough : 8 * m + 2 ≤ fuel + 9)
    (enough' : 8 * n + 2 ≤ fuel' + 9) :
    IsPrompt tokens m n
      (parseNamed (parse fuel .primary) (parse fuel .identifier) (parse fuel .path))
      (parseNamed (parse fuel' .primary) (parse fuel' .identifier) (parse fuel' .path)) := by
  let choice (fuel : Nat) (two : Bool) : Parser (TypeTree .primary) :=
    if two then do
      let word ← Parser.token .name
      let primary ← parse fuel .primary
      pure (prefixed word primary)
    else do
      let first ← parse fuel .identifier
      let path ← parse fuel .path
      pure (named first path)
  have each (two : Bool) :
      IsPrompt tokens m n (choice fuel two) (choice fuel' two) := by
    refine .ite (.tokenThen fun word => ?_) ?_
    · exact .bind (ih .primary 2 rfl (by omega) (by omega)) fun primary => .pure rfl
    · refine .bind (ih .identifier 1 rfl (by omega) (by omega)) fun identifier => ?_
      exact .bind (ih .path 1 rfl (by omega) (by omega)) fun path => .pure rfl
  refine .lookTwice (fun _ b => b.any startsPrimary) each fun t w fits => ?_
  rw [List.length_cons] at fits
  -- A name is taken in either case, and nothing else is.
  cases name : t.kind == .name with
  | false =>
    have refused (two : Bool) : choice fuel' two (t :: w) = .stuck (t :: w) := by
      cases two with
      | true => exact Parser.bind_stuck (Parser.word_stuck name w) _
      | false => exact Parser.bind_stuck (parse_identifier_stuck name w) _
    exact .inl fun _ _ => (refused _).trans (refused _).symm
  | true =>
    have taken (two : Bool) : (choice fuel' two [t]).rest = [] := by
      cases two with
      | true =>
        have read := Parser.bind_done (Parser.token_cons ⟨t, name⟩ [])
          fun word => parse fuel' .primary >>= fun primary => pure (prefixed word primary)
        refine (congrArg Reading.rest read).trans ?_
        rw [Reading.rest_bind_pure, rest_primary_nil]
      | false =>
        have first := (plain ⟨t, name⟩).isRead fuel' [] (show 8 + 1 ≤ fuel' by omega)
          ⟨stops_nil, by simp⟩
        have path := pathEnd.isRead fuel' [] (show 0 + 1 ≤ fuel' by omega) ⟨stops_nil, by simp⟩
        change ((parse fuel' .identifier >>= fun first => parse fuel' .path >>= fun path =>
          pure (named first path)) ((plain ⟨t, name⟩).tokens ++ [])).rest = []
        rw [Parser.bind_done first]
        exact congrArg Reading.rest (Parser.bind_done path _)
    exact .inr fun _ => taken _

theorem prompt_primary (ih : PromptBelow fuel) (enough : 8 * m + 2 ≤ fuel + 9)
    (enough' : 8 * n + 2 ≤ fuel' + 9) :
    IsPrompt tokens m n (parse (fuel + 1) .primary) (parse (fuel' + 1) .primary) := by
  refine .peek fun k => ?_
  split
  · exact prompt_square ih enough enough'
  · exact prompt_tuple ih enough enough'
  · exact prompt_named ih enough enough'

/-- Behind a token that is no name, nothing counts for the form of an element. -/
theorem elementForm_first (first : Kind) (second third second' third' : Option Kind) :
    elementForm (some first) second third = elementForm (some first) second' third' ∨
      (first == .name) = true := by
  cases soft : first.isSoftName <;> cases name : first == .name <;>
    simp [elementForm, soft, name]

/-- The third token only counts behind two names. -/
theorem elementForm_second (first second : Kind) (third third' : Option Kind) :
    elementForm (some first) (some second) third = elementForm (some first) (some second) third' ∨
      (first == .name) = true ∧ (second == .name) = true := by
  rcases elementForm_first first (some second) third (some second) third' with same | name
  · exact .inl same
  · cases second' : second == .name with
    | true => exact .inr ⟨name, rfl⟩
    | false => simp [elementForm, second']

theorem elementForm_names {first second : Kind} (name : (first == .name) = true)
    (name' : (second == .name) = true) (third : Option Kind) :
    elementForm (some first) (some second) third = .unlabelled ∨
      elementForm (some first) (some second) third = .relabelled := by
  rw [beq_iff_eq.mp name, beq_iff_eq.mp name']
  cases colon : third == some .colon
  · exact .inl (by simp [elementForm, Kind.isSoftName, colon])
  · exact .inr (by simp [elementForm, Kind.isSoftName, colon])

/-- The parser of an element of a form. -/
def parseForm (fuel : Nat) : ElementForm → Parser (TypeTree .element)
  | .unlabelled => unlabelled <$> parse fuel .whole
  | .labelled => do
    let label ← Parser.word Kind.isIdentifier
    let colon ← Parser.token .colon
    let type ← parse fuel .whole
    pure (labelled label colon type)
  | .relabelled => do
    let outer ← Parser.token .name
    let inner ← Parser.word Kind.isIdentifier
    let colon ← Parser.token .colon
    let type ← parse fuel .whole
    pure (relabelled outer inner colon type)

theorem prompt_element (ih : PromptBelow fuel) (enough : 8 * m + 5 ≤ fuel + 9)
    (enough' : 8 * n + 5 ≤ fuel' + 9) :
    IsPrompt tokens m n (parse (fuel + 1) .element) (parse (fuel' + 1) .element) := by
  have each (form : ElementForm) :
      IsPrompt tokens m n (parseForm fuel form) (parseForm fuel' form) := by
    cases form with
    | unlabelled => exact (ih .whole 4 rfl (by omega) (by omega)).map fun _ => rfl
    | labelled =>
      refine .wordThen (k := .name) rfl fun label => .tokenThen fun colon => ?_
      exact .bind (ih .whole 4 rfl (by omega) (by omega)) fun type => .pure rfl
    | relabelled =>
      refine .tokenThen fun outer => .wordThen (k := .name) rfl fun inner => ?_
      refine .tokenThen fun colon => ?_
      exact .bind (ih .whole 4 rfl (by omega) (by omega)) fun type => .pure rfl
  refine .look (fun ts => elementForm (ts.head?.map Token.kind) (ts.tail.head?.map Token.kind)
    (ts[2]?.map Token.kind)) each ?_
  -- The names in front of what decides are taken whatever the form is.
  have unlabelled {t : TypeTree .whole} (fits : 8 * t.tokens.length + 4 ≤ fuel') :
      (parseForm fuel' .unlabelled (t.tokens ++ [])).rest = [] := by
    have read := t.isRead fuel' [] fits ⟨stops_nil, by simp⟩
    exact congrArg Reading.rest (Parser.map_done read TypeTree.unlabelled)
  have names : ∀ k : Kind, (k == .name) = true → k.isIdentifier = true := by decide
  intro read t r w fits rest
  match read with
  | u :: v :: read => cases read <;> rfl
  | [] =>
    simp only [List.nil_append, List.length_cons] at fits
    rcases elementForm_first t.kind (w.head?.map Token.kind) (w[1]?.map Token.kind)
      (r.head?.map Token.kind) (r[1]?.map Token.kind) with same | name
    · exact congrArg (parseForm fuel' · (t :: w)) same
    · have taken (form : ElementForm) : (parseForm fuel' form [t]).rest = [] := by
        cases form with
        | unlabelled =>
          exact unlabelled (t := composed (marked (named (plain ⟨t, name⟩) pathEnd) []) noConjunct)
            (show 8 + 4 ≤ fuel' by omega)
        | labelled =>
          have read := Parser.word_cons ⟨t, names _ name⟩ []
          exact congrArg Reading.rest (Parser.bind_done read _)
        | relabelled =>
          have read := Parser.token_cons ⟨t, name⟩ []
          exact congrArg Reading.rest (Parser.bind_done read _)
      cases rest.symm.trans (taken _)
  | [u] =>
    simp only [List.cons_append, List.nil_append, List.length_cons] at fits
    rcases elementForm_second u.kind t.kind (w[0]?.map Token.kind) (r[0]?.map Token.kind) with
      same | ⟨name, name'⟩
    · exact congrArg (parseForm fuel' · (u :: t :: w)) same
    · have taken : (parseForm fuel' (elementForm (some u.kind) (some t.kind)
          (r[0]?.map Token.kind)) [u, t]).rest = [] := by
        rcases elementForm_names name name' (r[0]?.map Token.kind) with form | form
        · rw [form]
          exact unlabelled (t := composed (marked (prefixed ⟨u, name⟩
            (named (plain ⟨t, name'⟩) pathEnd)) []) noConjunct) (show 16 + 4 ≤ fuel' by omega)
        · rw [form]
          have read := Parser.token_cons ⟨u, name⟩ [t]
          have read' := Parser.word_cons ⟨t, names _ name'⟩ []
          change ((Parser.token .name >>= fun outer => Parser.word Kind.isIdentifier >>= fun inner =>
            Parser.token .colon >>= fun colon => parse fuel' .whole >>= fun type =>
              pure (relabelled outer inner colon type)) [u, t]).rest = []
          rw [Parser.bind_done read]
          exact congrArg Reading.rest (Parser.bind_done read' _)
      cases rest.symm.trans taken

end

/-- Every part of a type is read promptly. -/
theorem prompt (fuel : Nat) : PromptBelow fuel := by
  induction fuel with
  | zero =>
    intro p r m n fuel' rank enough enough'
    have pos : 0 < p.rank := by cases p <;> decide
    obtain rfl : m = 0 := by omega
    exact .nothing (opens_part p)
  | succ fuel ih =>
    have more : ∀ (p : TypePart) {m n fuel' : Nat}, 8 * m + p.rank ≤ fuel + 9 →
        8 * n + p.rank ≤ fuel' + 9 →
        IsPrompt tokens m n (parse (fuel + 1) p) (parse (fuel' + 1) p) := by
      intro p m n fuel' enough enough'
      cases p with
      | whole => exact prompt_whole ih enough enough'
      | conjuncts => exact prompt_conjuncts ih enough enough'
      | unit => exact prompt_unit ih enough enough'
      | primary => exact prompt_primary ih enough enough'
      | path => exact prompt_path ih enough enough'
      | identifier => exact prompt_identifier ih enough enough'
      | arguments => exact prompt_arguments ih enough enough'
      | elements => exact prompt_elements ih enough enough'
      | element => exact prompt_element ih enough enough'
      | moreElements => exact prompt_moreElements ih enough enough'
    intro p r m n fuel' rank enough enough'
    subst rank
    cases fuel' with
    | zero =>
      have pos : 0 < p.rank ∧ p.rank ≤ 8 := by cases p <;> decide
      have none : IsPrompt tokens m 0 (parse (fuel + 1) p) (parse 1 p) :=
        more p (by omega) (by omega)
      exact none.other (by omega)
    | succ fuel' => exact more p (by omega) (by omega)

end TypeTree

/-! ## Types in declarations -/

theorem TypeSyntax.prompt {m n fuel fuel' : Nat} (enough : 8 * m ≤ fuel + 4)
    (enough' : 8 * n ≤ fuel' + 4) :
    IsPrompt TypeTree.tokens m n (TypeSyntax.parse fuel) (TypeSyntax.parse fuel') :=
  TypeTree.prompt fuel .whole 4 rfl (by omega) (by omega)

theorem TypeClause.prompt? {m n fuel fuel' : Nat} (enough : 8 * m ≤ fuel + 8)
    (enough' : 8 * n ≤ fuel' + 8) :
    IsPrompt (optionTokens tokens) m n (parse? fuel) (parse? fuel') :=
  .optional (.tokenThen fun colon => .bind (TypeSyntax.prompt (by omega) (by omega)) fun type =>
    .pure rfl)

end Conformance.Grammar
