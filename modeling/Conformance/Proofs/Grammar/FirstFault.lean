import Mathlib.Order.Bounds.Defs
import Conformance.Proofs.Grammar.Exactness
import Conformance.Proofs.Grammar.PromptRow
import Conformance.Source

/-!
# Faults are reported where they are

The parser is prompt, so it gets stuck at the first token with which no sentence goes on
(`parse_stuck`).  A source is lexed and parsed in step, so of its faults the first one is
reported: the first impossible token, else the stray character that ended lexing, else the
end of the input, at the last token.

A brace in front of a stray character has not been delivered when lexing ends, so it is
never the impossible token.
-/

namespace Conformance

namespace Grammar

/-! ## Viable prefixes -/

/-- Some sentence of the grammar begins with the tokens. -/
def IsViable (ts : List Token) : Prop := ∃ f more, IsDerivation f (ts ++ more)

theorem isViable_iff {ts : List Token} : IsViable ts ↔ OpensRow ts := by
  constructor
  · rintro ⟨f, more, derivation⟩
    obtain ⟨i, rfl⟩ := exists_items derivation.derives
    have tokens : i.tokens = ts ++ more := by simpa [Items.derivation] using derivation.tokens
    exact ⟨i, more, tokens, (Forest.settled_under (by decide) ..).mp derivation.settled⟩
  · rintro ⟨i, more, tokens, settled⟩
    exact ⟨i.derivation, more, tokens ▸ isDerivation_of_parse (Items.parse_tokens settled)⟩

theorem IsViable.of_append {ts us : List Token} (h : IsViable (ts ++ us)) : IsViable ts :=
  isViable_iff.mpr (isViable_iff.mp h).of_append

theorem IsViable.take {ts : List Token} (h : IsViable ts) (k : Nat) : IsViable (ts.take k) := by
  rw [← ts.take_append_drop k] at h
  exact h.of_append

/-! ## The parser of sources -/

theorem prompt_enough (ts us : List Token) :
    Prompt Items.tokens OpensRow [] (ts.length + 1) (us.length + 1)
      (Items.parse (enough ts.length)) (Items.parse (enough us.length)) :=
  Items.prompt (Nat.le_refl _) (Nat.le_refl _)

/-- What is accepted is not stuck at a token. -/
theorem not_isViable {front : List Token} {t : Token}
    (stuck : ∀ w, ∃ r, parse (front ++ t :: w) = .stuck r) : ¬ IsViable (front ++ [t]) := by
  rintro ⟨f, w, derivation⟩
  rw [List.append_assoc] at derivation
  obtain ⟨i, -, read⟩ := parse_of_isDerivation derivation
  obtain ⟨r, again⟩ := stuck w
  cases read.symm.trans again

/-- What is in front of the place where the parser is stuck is viable, and no longer so with the
token there. -/
theorem parse_stuck {ts rest : List Token} (h : parse ts = .stuck rest) :
    ∃ front, ts = front ++ rest ∧ IsViable front ∧
      ∀ t r, rest = t :: r → ¬ IsViable (front ++ [t]) := by
  have here := prompt_enough ts
  unfold parse at h
  split at h
  · cases h
  next i last notNil read =>
    cases h
    obtain ⟨front, eq, tokens, -⟩ := (here []).done (Nat.lt_succ_self _) read
    have settled := (Items.sound _ _ _ _ read).settled.of_stops stops_nil
    have viable : OpensRow front := ⟨i, [], by simpa using tokens, settled⟩
    refine ⟨front, eq, isViable_iff.mpr viable, ?_⟩
    rintro t r rfl
    refine not_isViable fun w => ⟨t :: w, ?_⟩
    obtain ⟨front', eq', -, again⟩ := (here (front ++ t :: w)).done (Nat.lt_succ_self _) read
    obtain rfl := List.append_cancel_right (eq.symm.trans eq')
    rw [parse, again t r rfl w (Nat.lt_succ_self _)]
  next last read =>
    cases h
    obtain ⟨front, eq, opened, -⟩ := (here []).stuck (Nat.lt_succ_self _) read
    refine ⟨front, eq, isViable_iff.mpr opened, ?_⟩
    rintro t r rfl
    refine not_isViable fun w => ⟨t :: w, ?_⟩
    obtain ⟨front', eq', -, again⟩ := (here (front ++ t :: w)).stuck (Nat.lt_succ_self _) read
    obtain rfl := List.append_cancel_right (eq.symm.trans eq')
    rw [parse, again t r rfl w (Nat.lt_succ_self _)]

/-- What is accepted is viable. -/
theorem isViable_of_parse {ts rest : List Token} {i : Items} (h : parse ts = .done i rest) :
    IsViable ts := by
  obtain rfl := parse_leaves_nothing h
  exact ⟨i.derivation, [], by simpa using isDerivation_of_parse h⟩

end Grammar

/-! ## Stray characters -/

/-- A stray character stands in the source, at its place, and no pattern takes it. -/
theorem stray_lexFrom {fuel : Nat} {p : Position} {layout : String} {cs : List Char} {s : Stray}
    (h : (lexFrom fuel p layout cs).stray? = some s) :
    ∃ front rest, cs = front ++ s.char :: rest ∧ s.position = p.advance front ∧
      Lexical.front? (s.char :: rest) = none := by
  induction fuel generalizing p layout cs with
  | zero => cases h
  | succ fuel ih =>
    cases cs with
    | nil => cases h
    | cons c cs =>
      unfold lexFrom at h
      split at h
      next none =>
        cases h
        exact ⟨[], cs, rfl, rfl, none⟩
      next l n found =>
        have whole := List.take_append_drop n (c :: cs)
        dsimp only at h
        have later : ∃ layout', (lexFrom fuel (p.advance ((c :: cs).take n)) layout'
            ((c :: cs).drop n)).stray? = some s := by
          split at h
          · exact ⟨_, h⟩
          · exact ⟨_, h⟩
        obtain ⟨layout', later⟩ := later
        obtain ⟨front, rest, eq, place, none⟩ := ih later
        refine ⟨(c :: cs).take n ++ front, rest, ?_, ?_, none⟩
        · rw [List.append_assoc, ← eq, whole]
        · rw [place, Position.advance_append]

/-! ## Sources -/

open Grammar

/-- The first impossible token is known where the parser is stuck. -/
theorem eq_of_isLeast {front r : List Token} {t : Token} {k : Nat} (viable : IsViable front)
    (no : ¬ IsViable (front ++ [t]))
    (least : IsLeast {k | ¬ IsViable ((front ++ t :: r).take k)} k) : k = front.length + 1 := by
  have here : (front ++ t :: r).take (front.length + 1) = front ++ [t] := by
    rw [List.take_length_add_append]
    rfl
  have le : k ≤ front.length + 1 := by
    refine least.2 ?_
    show ¬ IsViable _
    rwa [here]
  refine Nat.le_antisymm le (Nat.lt_of_not_le fun few => least.1 ?_)
  rw [List.take_append_of_le_length few]
  exact viable.take k

/-- What is wrong with a syntax: the first impossible token, else the stray character, else the end
of the input. -/
theorem readSyntax_error {cs : List Char} {f : SyntaxFailure} (rejected : readSyntax cs = .error f) :
    (∃ front t r, (lex cs).delivered = front ++ t :: r ∧ IsViable front ∧
        ¬ IsViable (front ++ [t]) ∧ f = ⟨.token t.text, t.start⟩) ∨
      (IsViable (lex cs).delivered ∧
        ((∃ s, (lex cs).stray? = some s ∧ f = s.failure) ∨
          ((lex cs).stray? = none ∧ ∃ t, (lex cs).delivered.getLast? = some t ∧
            f = ⟨.endOfInput, t.start⟩))) := by
  unfold readSyntax at rejected
  dsimp only at rejected
  cases read : parse (lex cs).delivered with
  | done i rest =>
    have viable := isViable_of_parse read
    rw [read] at rejected
    cases stray : (lex cs).stray? with
    | none =>
      simp only [stray] at rejected
      cases rejected
    | some s =>
      simp only [stray] at rejected
      cases rejected
      exact .inr ⟨viable, .inl ⟨s, rfl, rfl⟩⟩
  | stuck rest =>
    obtain ⟨front, eq, viable, no⟩ := parse_stuck read
    rw [read] at rejected
    cases rest with
    | cons t r =>
      cases rejected
      exact .inl ⟨front, t, r, eq, viable, no t r rfl, rfl⟩
    | nil =>
      rw [List.append_nil] at eq
      rw [← eq] at viable
      cases stray : (lex cs).stray? with
      | some s =>
        simp only [stray] at rejected
        cases rejected
        exact .inr ⟨viable, .inl ⟨s, rfl, rfl⟩⟩
      | none =>
        simp only [stray] at rejected
        cases rejected
        cases last : (lex cs).delivered.getLast? with
        | some t => exact .inr ⟨viable, .inr ⟨rfl, t, rfl, rfl⟩⟩
        | none =>
          -- Nothing is missing where nothing stands.
          rw [List.getLast?_eq_none_iff.mp last] at read
          cases read

/-- A source is rejected with the diagnostic of a fault. -/
theorem SourceFile.exists_failure {text : String} {filename : Option String} {d : Diagnostic}
    (rejected : SourceFile.read text filename = .error d) :
    ∃ f, readSyntax text.toList = .error f ∧ d = f.diagnostic text.toList filename := by
  unfold SourceFile.read at rejected
  dsimp only at rejected
  split at rejected
  · cases rejected
  next f failed =>
    cases rejected
    exact ⟨f, failed, rfl⟩

/-- A diagnostic reports the first fault of a source. -/
structure ReportsFirstFault (cs : List Char) (filename : Option String) (d : Diagnostic) :
    Prop where
  /-- It reports the last token of the shortest prefix that no sentence begins with. -/
  token : ∀ k, IsLeast {k | ¬ IsViable ((lex cs).delivered.take k)} k →
    ∃ j t, k = j + 1 ∧ (lex cs).delivered[j]? = some t ∧
      d = SyntaxFailure.diagnostic ⟨.token t.text, t.start⟩ cs filename
  /-- If a sentence begins with all of them, it reports the character that ended lexing, at its
  place in the source. -/
  character : (∀ k, IsViable ((lex cs).delivered.take k)) → ∀ s, (lex cs).stray? = some s →
    ∃ front rest, cs = front ++ s.char :: rest ∧ Lexical.front? (s.char :: rest) = none ∧
      d = SyntaxFailure.diagnostic ⟨.character s.char, Position.origin.advance front⟩ cs filename
  /-- If there is none, it reports the end of the input, at the start of the last token. -/
  endOfInput : (∀ k, IsViable ((lex cs).delivered.take k)) → (lex cs).stray? = none →
    ∃ t, (lex cs).delivered.getLast? = some t ∧
      d = SyntaxFailure.diagnostic ⟨.endOfInput, t.start⟩ cs filename

/-- Every rejected source is reported at its first fault. -/
theorem SourceFile.read_firstFault {text : String} {filename : Option String} {d : Diagnostic}
    (rejected : SourceFile.read text filename = .error d) :
    ReportsFirstFault text.toList filename d := by
  obtain ⟨f, failed, rfl⟩ := exists_failure rejected
  rcases readSyntax_error failed with ⟨front, t, r, eq, viable, no, rfl⟩ | ⟨viable, other⟩
  · have impossible : ¬ ∀ k, IsViable ((lex text.toList).delivered.take k) := by
      intro all
      have here := all (front.length + 1)
      rw [eq, List.take_length_add_append] at here
      exact no here
    refine ⟨fun k least => ?_, fun all => absurd all impossible, fun all => absurd all impossible⟩
    rw [eq] at least
    exact ⟨front.length, t, eq_of_isLeast viable no least, by simp [eq], rfl⟩
  · refine ⟨fun k least => absurd (viable.take k) least.1, fun _ s' stray' => ?_, fun _ clean' => ?_⟩
    · rcases other with ⟨s, stray, rfl⟩ | ⟨clean, -⟩
      · obtain rfl := Option.some.inj (stray.symm.trans stray')
        obtain ⟨front, rest, eq, place, none⟩ := stray_lexFrom stray
        exact ⟨front, rest, eq, none, place ▸ rfl⟩
      · cases clean.symm.trans stray'
    · rcases other with ⟨s, stray, -⟩ | ⟨-, t, last, rfl⟩
      · cases stray.symm.trans clean'
      · exact ⟨t, last, rfl⟩

/-- A constant without a name, and a character that starts no token. -/
def faultBeforeStray : String := "let ) §"

theorem SourceFile.read_faultBeforeStray :
    ∃ d, SourceFile.read faultBeforeStray none = .error d ∧
      ReportsFirstFault faultBeforeStray.toList none d ∧ d.message = "unexpected token ')'" := by
  have message : (match SourceFile.read faultBeforeStray none with
      | .error d => d.message
      | .ok _ => .ofString "") = .ofString "unexpected token ')'" := by
    decide +kernel
  cases read : SourceFile.read faultBeforeStray none with
  | error d =>
    rw [read] at message
    exact ⟨d, rfl, SourceFile.read_firstFault read, message⟩
  | ok s =>
    rw [read] at message
    exact absurd (LooseText.ofString_injective message) (by decide)

end Conformance
