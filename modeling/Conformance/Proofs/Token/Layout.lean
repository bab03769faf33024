import Conformance.Proofs.Token.Relocation

/-!
# Layout between tokens

What stands between two tokens is *layout*: blanks and complete comments.  A line comment is
complete at the end of its line, a block comment at the first mark that closes it.
`IsLayout` says so without the lexer, and the lexer skips just this (`isLayout_iff_lexes`).

Layout without line comments is layout in front of any text (`IsLayout.closed`).
-/

namespace Conformance

open Pattern Lexical

/-- Blanks and complete comments in front of a text, with line comments among them only where
these are allowed. -/
inductive IsLayout (lines : Bool) : (text rest : List Char) → Prop
  | done {rest : List Char} : IsLayout lines [] rest
  /-- A blank. -/
  | blank {c : Char} {text rest : List Char} (space : isSpace c = true)
      (more : IsLayout lines text rest) : IsLayout lines (c :: text) rest
  /-- A comment up to the end of its line. -/
  | line {body text rest : List Char} (allowed : lines = true) (inside : '\n' ∉ body)
      (ends : ∀ c ∈ (text ++ rest).head?, c = '\n') (more : IsLayout lines text rest) :
      IsLayout lines ('/' :: '/' :: (body ++ text)) rest
  /-- A comment up to the first mark that closes it. -/
  | block {body text rest : List Char} (first : ¬['*', '/'] <:+: body ++ ['*'])
      (more : IsLayout lines text rest) :
      IsLayout lines ('/' :: '*' :: (body ++ '*' :: '/' :: text)) rest

namespace IsLayout

variable {lines : Bool} {a b rest : List Char}

/-- Layout without line comments does not hang on what is behind it. -/
theorem closed (h : IsLayout false a rest) (behind : List Char) : IsLayout lines a behind := by
  induction h with
  | done => exact .done
  | blank space more ih => exact .blank space ih
  | line allowed => cases allowed
  | block first more ih => exact .block first ih

end IsLayout

/-! ## Comments -/

section
variable {cs rest : List Char} {n : Nat}

theorem run_inLine {body : List Char} (inside : '\n' ∉ body)
    (ends : ∀ c ∈ rest.head?, c = '\n') : run inLine (body ++ rest) = body.length := by
  have all : ∀ c ∈ body, inLine c = true := by
    intro c mem
    refine bne_iff_ne.mpr ?_
    rintro rfl
    exact inside mem
  have none : rest.takeWhile inLine = [] := by
    cases rest with
    | nil => rfl
    | cons c cs =>
      obtain rfl := ends c rfl
      rfl
  rw [run, List.takeWhile_append_of_pos all, none, List.append_nil]

theorem closing_infix_cons {c : Char} {body : List Char} :
    ['*', '/'] <:+: c :: body ↔ (c = '*' ∧ body.head? = some '/') ∨ ['*', '/'] <:+: body := by
  rw [List.infix_cons_iff]
  cases body with
  | nil => simp
  | cons d body => simp [List.cons_prefix_cons, eq_comm]

theorem commentEnd_cons {c : Char} (ne : ¬(c = '*' ∧ cs.head? = some '/')) :
    commentEnd (c :: cs) = (commentEnd cs).map (· + 1) := by
  cases cs with
  | nil => simp [commentEnd]
  | cons d cs => exact commentEnd_cons_of_ne fun closes => ne ⟨closes.1, congrArg some closes.2⟩

/-- A block comment ends behind the first mark that closes it. -/
theorem commentEnd_body {body : List Char} (first : ¬['*', '/'] <:+: body ++ ['*'])
    (rest : List Char) : commentEnd (body ++ '*' :: '/' :: rest) = some (body.length + 2) := by
  induction body with
  | nil => rfl
  | cons c body ih =>
    rw [List.cons_append, closing_infix_cons, not_or] at first
    have same : (body ++ '*' :: '/' :: rest).head? = (body ++ ['*']).head? := by
      cases body <;> rfl
    rw [List.cons_append, commentEnd_cons (same ▸ first.1), ih first.2]
    rfl

theorem exists_body (h : commentEnd cs = some n) : ∃ body rest,
    cs = body ++ '*' :: '/' :: rest ∧ n = body.length + 2 ∧ ¬['*', '/'] <:+: body ++ ['*'] := by
  induction cs generalizing n with
  | nil => cases h
  | cons c cs ih =>
    by_cases closes : c = '*' ∧ cs.head? = some '/'
    · obtain ⟨rfl, head⟩ := closes
      cases cs with
      | nil => cases head
      | cons d cs =>
        cases head
        cases h
        exact ⟨[], cs, rfl, rfl, by decide⟩
    · rw [commentEnd_cons closes] at h
      obtain ⟨m, found, rfl⟩ := Option.map_eq_some_iff.mp h
      obtain ⟨body, rest, rfl, rfl, first⟩ := ih found
      have same : (body ++ '*' :: '/' :: rest).head? = (body ++ ['*']).head? := by
        cases body <;> rfl
      refine ⟨c :: body, rest, rfl, rfl, ?_⟩
      rw [List.cons_append, closing_infix_cons, not_or, ← same]
      exact ⟨closes, first⟩

/-- A text that is matched as a comment is one. -/
theorem comment_cases {text : List Char}
    (h : Pattern.comment (text ++ rest) = some text.length) :
    (∃ body, text = '/' :: '/' :: body ∧ '\n' ∉ body ∧ ∀ c ∈ rest.head?, c = '\n') ∨
      ∃ body, text = '/' :: '*' :: (body ++ ['*', '/']) ∧ ¬['*', '/'] <:+: body ++ ['*'] := by
  have bounds := comment_bounds h
  match text, h, bounds.1 with
  | [c], h, _ =>
    unfold Pattern.comment at h
    split at h
    · simp only [List.length_singleton, Option.some.injEq] at h
      omega
    · obtain ⟨m, found, eq⟩ := Option.map_eq_some_iff.mp h
      simp only [List.length_singleton] at eq
      omega
    · cases h
  | c :: d :: body, h, _ =>
    by_cases slash : c = '/'
    · subst slash
      by_cases line : d = '/'
      · subst line
        have length : 2 + run inLine (body ++ rest) = body.length + 2 := Option.some.inj h
        have whole := takeWhile_of_run (by omega : run inLine (body ++ rest) = body.length)
        refine .inl ⟨body, rfl, fun mem => ?_, fun e first => ?_⟩
        · rw [← whole] at mem
          exact absurd (List.mem_takeWhile_imp mem) (by decide)
        · cases rest with
          | nil => cases first
          | cons f rest =>
            cases first
            by_contra other
            have all : ∀ x ∈ body, inLine x = true := fun x mem =>
              List.mem_takeWhile_imp (whole.symm ▸ mem)
            have more : inLine e = true := bne_iff_ne.mpr other
            rw [List.takeWhile_append_of_pos all, List.takeWhile_cons_of_pos more] at whole
            have lengths := congrArg List.length whole
            simp only [List.length_append, List.length_cons] at lengths
            omega
      · by_cases block : d = '*'
        · subst block
          have inner : (commentEnd (body ++ rest)).map (· + 2) = some (body.length + 2) := h
          obtain ⟨m, found, eq⟩ := Option.map_eq_some_iff.mp inner
          obtain ⟨front, behind, whole, rfl, first⟩ := exists_body found
          have split : body ++ rest = (front ++ ['*', '/']) ++ behind := by simp [whole]
          have same := (List.append_inj split (by simp; omega)).1
          exact .inr ⟨front, by rw [same], first⟩
        · simp [Pattern.comment, line, block] at h
    · rw [List.cons_append, comment_eq_none slash] at h
      cases h

theorem front?_lineComment {body : List Char} (inside : '\n' ∉ body)
    (ends : ∀ c ∈ rest.head?, c = '\n') :
    front? ('/' :: '/' :: body ++ rest) = some (.comment, ('/' :: '/' :: body).length) := by
  have match' : Pattern.comment ('/' :: '/' :: (body ++ rest)) = some (2 + body.length) :=
    congrArg (fun n => some (2 + n)) (run_inLine inside ends)
  rw [List.cons_append, List.cons_append, front?_slash, match', Nat.add_comm]
  rfl

theorem front?_blockComment {body : List Char} (first : ¬['*', '/'] <:+: body ++ ['*'])
    (rest : List Char) : front? ('/' :: '*' :: (body ++ ['*', '/']) ++ rest) =
      some (.comment, ('/' :: '*' :: (body ++ ['*', '/'])).length) := by
  have ends : commentEnd (body ++ ['*', '/'] ++ rest) = some (body.length + 2) := by
    simpa using commentEnd_body first rest
  have match' : Pattern.comment ('/' :: '*' :: (body ++ ['*', '/'] ++ rest)) =
      some (body.length + 2 + 2) :=
    congrArg (Option.map (· + 2)) ends
  rw [List.cons_append, List.cons_append, front?_slash, match']
  simp

end

/-! ## The lexer -/

/-- What the lexer skips is layout. -/
theorem isLayout_iff_lexes {a rest : List Char} : IsLayout true a rest ↔ Lexes a [] rest := by
  constructor
  · intro h
    induction h with
    | done => exact .done
    | blank space more ih => exact .turn (.blank space) ih
    | @line body text rest allowed inside ends more ih =>
      exact .turn (.comment (front?_lineComment inside ends)) ih
    | @block body text rest first more ih =>
      have whole := Lexes.turn (.comment (front?_blockComment first (text ++ rest))) ih
      simpa using whole
  · intro h
    generalize none : ([] : List Lexeme) = ls at h
    induction h with
    | done => exact .done
    | @turn text a rest o ls first others ih =>
      obtain ⟨noLexeme, noOthers⟩ := List.append_eq_nil_iff.mp none.symm
      have more := ih noOthers.symm
      cases first with
      | blank space => exact .blank space more
      | angle => cases noLexeme
      | token => cases noLexeme
      | comment found =>
        obtain ⟨p, mem, is⟩ := exists_pattern found
        obtain rfl : p = Pattern.comment := by simpa [patterns] using mem
        obtain ⟨body, rfl, inside, ends⟩ | ⟨body, rfl, first⟩ := comment_cases is
        · exact .line rfl inside ends more
        · simpa using IsLayout.block first more

end Conformance
