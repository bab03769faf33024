import Conformance.Proofs.Comparing.Runs
import Conformance.Proofs.Token.Joining

/-!
# String literals are invertible

A literal is read back by undoing its escapes (`Comparing.literal?`), and only the literal of a
text is read as that text: neither loses anything of the other (`literal?_eq_some_iff`).

The lexer walks over the same characters and only counts them.  It comes to the same end: the
literal of a text on one line is one token of a source and ends at its last quote
(`front?_stringLiteral`).  The pattern for three quotes is the one that could take more.  It does
not match, because two quotes in a row are a whole literal, the empty one, and no third quote
follows it.
-/

namespace Conformance

open Pattern Lexical Comparing

/-! ## Reading back -/

/-- Escaping doubles the backslashes first and then puts one in front of each quote.  The other
way round the backslashes of the quotes would be doubled as well. -/
theorem escape_eq_replacements (cs : List Char) :
    cs.flatMap escapeLiteralChar =
      (cs.flatMap fun c => if c = '\\' then ['\\', '\\'] else [c]).flatMap fun c =>
        if c = '"' then ['\\', '"'] else [c] := by
  rw [List.flatMap_assoc]
  congr 1
  funext c
  rw [escapeLiteralChar]
  split
  · rfl
  · split <;> simp_all

/-- What is read back as a text is the text escaped, up to a quote. -/
theorem eq_escape_of_literalChars {inside cs : List Char} (reads : literalChars inside = some cs) :
    inside = cs.flatMap escapeLiteralChar ++ ['"'] := by
  induction inside using literalChars.induct generalizing cs with
  | case1 =>
    cases reads
    rfl
  | case2 c inside escapes ih =>
    rw [literalChars, if_pos escapes] at reads
    obtain ⟨ds, inner, rfl⟩ := Option.map_eq_some_iff.mp reads
    rw [ih inner]
    rcases escapes with rfl | rfl <;> rfl
  | case3 c inside other =>
    rw [literalChars, if_neg other] at reads
    cases reads
  | case4 inside notEnd =>
    rw [literalChars, if_pos rfl] at reads
    · cases reads
    · exact notEnd
    · exact fun _ _ is => absurd is (by decide)
  | case5 c inside notEnd notEscape quote ih =>
    rw [literalChars, if_neg quote] at reads
    · obtain ⟨ds, inner, rfl⟩ := Option.map_eq_some_iff.mp reads
      have slash : c ≠ '\\' := by
        rintro rfl
        cases inside with
        | nil => cases inner
        | cons d inside => exact notEscape d inside rfl rfl
      rw [ih inner, List.flatMap_cons, escapeLiteralChar, if_neg slash, if_neg quote]
      rfl
    · exact notEnd
    · exact notEscape
  | case6 => cases reads

/-- A text is read back from its literal and from nothing else. -/
theorem literal?_eq_some_iff {text : String} {cs : List Char} :
    literal? text = some cs ↔ text = stringLiteral cs := by
  constructor
  · intro reads
    unfold literal? at reads
    split at reads
    next inside chars =>
      apply String.toList_injective
      rw [chars, eq_escape_of_literalChars reads, stringLiteral, String.toList_ofList]
      rfl
    next => cases reads
  · rintro rfl
    exact literal?_stringLiteral cs

theorem length_le_flatMap_escape (cs : List Char) :
    cs.length ≤ (cs.flatMap escapeLiteralChar).length := by
  induction cs with
  | nil => exact Nat.le_refl _
  | cons c cs ih =>
    have some : 0 < (escapeLiteralChar c).length := by
      unfold escapeLiteralChar
      split
      · decide
      · split <;> simp
    rw [List.flatMap_cons, List.length_append, List.length_cons]
    omega

/-- A text with neither quotes nor backslashes is its own literal, but for the quotes around it. -/
theorem flatMap_escape_eq_self {cs : List Char} :
    cs.flatMap escapeLiteralChar = cs ↔ ∀ c ∈ cs, c ≠ '"' ∧ c ≠ '\\' := by
  induction cs with
  | nil => simp
  | cons c cs ih =>
    rw [List.flatMap_cons, List.forall_mem_cons, ← ih]
    constructor
    · intro same
      have notSlash : c ≠ '\\' := by
        rintro rfl
        -- Each character takes at least its own place, and this one takes two.
        have longer := length_le_flatMap_escape cs
        have lengths := congrArg List.length same
        rw [List.length_append, List.length_cons] at lengths
        have two : (escapeLiteralChar '\\').length = 2 := rfl
        omega
      have notQuote : c ≠ '"' := by
        rintro rfl
        cases (List.cons.inj same).1
      rw [escapeLiteralChar, if_neg notSlash, if_neg notQuote] at same
      exact ⟨⟨notQuote, notSlash⟩, (List.cons.inj same).2⟩
    · rintro ⟨⟨notQuote, notSlash⟩, same⟩
      rw [escapeLiteralChar, if_neg notSlash, if_neg notQuote, same]
      rfl

/-! ## Lexing -/

section
variable {cs rest : List Char}

theorem quoteEnd_flatMap_escape (oneLine : '\n' ∉ cs) (rest : List Char) :
    quoteEnd (cs.flatMap escapeLiteralChar ++ '"' :: rest) =
      some ((cs.flatMap escapeLiteralChar).length + 1) := by
  induction cs with
  | nil => rfl
  | cons c cs ih =>
    obtain ⟨feed, later⟩ := not_or.mp (mt List.mem_cons.mpr oneLine)
    have further := ih later
    rw [List.flatMap_cons, List.append_assoc, escapeLiteralChar]
    split
    next =>
      rw [List.cons_append, List.cons_append, quoteEnd_escape, List.nil_append, further]
      rfl
    next slash =>
      split
      next =>
        rw [List.cons_append, List.cons_append, quoteEnd_escape, List.nil_append, further]
        rfl
      next quote =>
        rw [List.singleton_append, quoteEnd_cons_of_ne quote slash, further,
          if_neg (by simpa using Ne.symm feed)]
        rfl

/-- No literal begins with three quotes, in front of anything but a quote. -/
theorem tripleQuoted_literal (behind : ∀ c ∈ rest.head?, c ≠ '"') :
    tripleQuoted ('"' :: (cs.flatMap escapeLiteralChar ++ '"' :: rest)) = none := by
  unfold tripleQuoted
  split
  next more eq =>
    obtain ⟨-, inner⟩ := List.cons.inj eq
    cases cs with
    | nil =>
      cases inner
      exact absurd rfl (behind '"' rfl)
    | cons c cs =>
      -- The first character inside is a quote nowhere.
      rw [List.flatMap_cons, escapeLiteralChar] at inner
      split at inner
      next => cases inner
      next =>
        split at inner
        next => cases inner
        next quote => exact absurd (List.cons.inj inner).1 quote
  next => rfl

/-- The literal of a text on one line is lexed as one token, in front of all but a quote or a
pound sign. -/
theorem front?_stringLiteral (oneLine : '\n' ∉ cs) (behind : ∀ c ∈ rest.head?, c ≠ '#' ∧ c ≠ '"') :
    front? ((stringLiteral cs).toList ++ rest) =
      some (.string, (stringLiteral cs).toList.length) := by
  have whole : (stringLiteral cs).toList ++ rest =
      '"' :: (cs.flatMap escapeLiteralChar ++ '"' :: rest) := by
    simp [stringLiteral]
  have length : (stringLiteral cs).toList.length = (cs.flatMap escapeLiteralChar).length + 2 := by
    simp [stringLiteral]
  have triple : tripleQuoted ('"' :: (cs.flatMap escapeLiteralChar ++ '"' :: rest)) = none :=
    tripleQuoted_literal fun c mem => (behind c mem).2
  have single : quoted ('"' :: (cs.flatMap escapeLiteralChar ++ '"' :: rest)) =
      some ((cs.flatMap escapeLiteralChar).length + 2) := by
    rw [quoted, quoteEnd_flatMap_escape oneLine]
    rfl
  have opening : pounds ('"' :: (cs.flatMap escapeLiteralChar ++ '"' :: rest)) = 0 := rfl
  have closing : pounds rest = 0 := by
    cases rest with
    | nil => rfl
    | cons c cs => simp [pounds, run, (behind c rfl).1]
  have after : ('"' :: (cs.flatMap escapeLiteralChar ++ '"' :: rest)).drop
      ((cs.flatMap escapeLiteralChar).length + 2) = rest := by
    rw [← whole, ← length, List.drop_left]
  rw [length, whole, front?_quote, Pattern.string, opening]
  simp only [List.drop_zero, triple, Option.none_or, single, Option.map_some, after, closing]
  rw [Nat.zero_add, Nat.add_zero]

end

/-- A literal is the first token of what it stands in front of, and reading it back gives the
text.  So no other text has the same literal. -/
theorem stringLiteral_invertible {cs : List Char} (oneLine : '\n' ∉ cs) :
    (∀ rest : List Char, (∀ c ∈ rest.head?, c ≠ '#' ∧ c ≠ '"') →
      lex ((stringLiteral cs).toList ++ rest) =
        .cons ⟨.string, "", stringLiteral cs, .origin,
            Position.origin.advance (stringLiteral cs).toList⟩
          (lexAt (Position.origin.advance (stringLiteral cs).toList) "" rest)) ∧
    literal? (stringLiteral cs) = some cs ∧
    ∀ ds, stringLiteral ds = stringLiteral cs → ds = cs := by
  refine ⟨fun rest behind => ?_, literal?_stringLiteral cs, fun ds same => ?_⟩
  · have found := front?_stringLiteral oneLine behind
    have token : Lexical.string.kind? (stringLiteral cs).toList = some .string := rfl
    have lexed : lexAt .origin "" ((stringLiteral cs).toList ++ rest) = _ := lexAt_token found token
    rwa [String.ofList_toList] at lexed
  · have reads := literal?_eq_some_iff.mpr same.symm
    rw [literal?_stringLiteral] at reads
    exact (Option.some.inj reads).symm

/-- The literal of a text that begins with a quote and ends in a backslash, inside a call. -/
theorem stringLiteral_invertible_quote :
    '\n' ∉ ['"', 'a', '\\'] ∧ stringLiteral ['"', 'a', '\\'] = "\"\\\"a\\\\\"" ∧
    (lex ((stringLiteral ['"', 'a', '\\']).toList ++ [')'])).tokens.map Token.text =
      ["\"\\\"a\\\\\"", ")"] ∧
    literal? "\"\\\"a\\\\\"" = some ['"', 'a', '\\'] := by
  have oneLine : '\n' ∉ ['"', 'a', '\\'] := by decide
  obtain ⟨lexed, reads, -⟩ := stringLiteral_invertible oneLine
  refine ⟨oneLine, by decide, ?_, reads⟩
  rw [lexed [')'] fun c head => by cases head; decide]
  decide

end Conformance
