import Conformance.Proofs.Token.Joining

/-!
# Tokens without their places

The lexer reads the same tokens wherever a text stands, but for their places
(`lexAt_unplaced`), and so does the grammar (`stream_unplaced`).  So the same text behind two
words gives the same tokens behind the tokens of these words (`delivered_behind_word`).
-/

namespace Conformance

open Lexical

/-- A token without its place. -/
def Token.unplaced (t : Token) : Token := { t with start := .origin, stop := .origin }

namespace Token

@[simp] theorem kind_unplaced (t : Token) : t.unplaced.kind = t.kind := rfl

/-- The text of tokens hangs on no places. -/
theorem stretch_unplaced (ts : List Token) : stretch (ts.map unplaced) = stretch ts := by
  cases ts with
  | nil => rfl
  | cons t ts =>
    rw [List.map_cons, stretch, stretch, List.map_map]
    rfl

/-! ## The lexer -/

/-- A text is lexed alike wherever it stands. -/
theorem lexAt_unplaced (p q : Position) (layout : String) (cs : List Char) :
    (lexAt p layout cs).tokens.map unplaced = (lexAt q layout cs).tokens.map unplaced ∧
      ((lexAt p layout cs).stray? = none ↔ (lexAt q layout cs).stray? = none) := by
  induction p, layout, cs using lexing_induction generalizing q with
  | done p layout => exact ⟨rfl, Iff.rfl⟩
  | stray p layout c cs none => simp [lexAt_stray none]
  | blank p layout text rest l found kind ih =>
    rw [lexAt_layout found kind, lexAt_layout found kind]
    exact ih (q.advance text)
  | token p layout text rest l k found kind ih =>
    obtain ⟨tokens, clean⟩ := ih (q.advance text)
    rw [lexAt_token found kind, lexAt_token found kind]
    refine ⟨?_, clean⟩
    rw [Lexed.cons, Lexed.cons, List.map_cons, List.map_cons, tokens]
    rfl

/-! ## The stream -/

theorem pieces_unplaced (t : Token) (i : Nat) (cs : List Char) :
    (t.unplaced.pieces i cs).map unplaced = (t.pieces i cs).map unplaced := by
  induction cs generalizing i with
  | nil => rfl
  | cons c cs ih =>
    rw [pieces, pieces, List.map_cons, List.map_cons, ih]
    rfl

theorem split_unplaced (t : Token) : t.unplaced.split.map unplaced = t.split.map unplaced := by
  have run : t.unplaced.isRun = t.isRun := rfl
  rw [split, split, run]
  split
  · exact pieces_unplaced t 0 t.text.toList
  · rfl

theorem markObservers_unplaced (ts : List Token) :
    markObservers (ts.map unplaced) = (markObservers ts).map unplaced :=
  markObservers_map (f := unplaced) (fun _ => rfl) (fun _ => rfl) (fun _ => rfl) ts

/-- The stream of tokens hangs on no places. -/
theorem stream_unplaced {ts us : List Token} (same : ts.map unplaced = us.map unplaced) :
    (stream ts).map unplaced = (stream us).map unplaced := by
  have pieces (ts : List Token) : (ts.flatMap split).map unplaced =
      (ts.map unplaced).flatMap fun t => t.split.map unplaced := by
    rw [List.map_flatMap, List.flatMap_map]
    congr 1
    funext t
    exact (split_unplaced t).symm
  rw [stream, stream, ← markObservers_unplaced, ← markObservers_unplaced, pieces, pieces, same]

end Token

/-! ## Behind a word -/

/-- What the grammar reads of a text behind a word and a blank. -/
def tokensBehind (behind : List Char) : List Token :=
  Token.stream (lexAt .origin "" (' ' :: behind)).tokens

/-- A text behind a word and a blank is read alike whatever the word is. -/
theorem delivered_behind_word {w behind : List Char}
    (found : front? (w ++ ' ' :: behind) = some (.word, w.length))
    (clean : (lex (w ++ ' ' :: behind)).stray? = none) :
    ∃ t ts, (lex (w ++ ' ' :: behind)).delivered = t :: ts ∧
      t.kind = Kind.ofWord (String.ofList w) ∧
      ts.map Token.unplaced = (tokensBehind behind).map Token.unplaced := by
  generalize kind : Kind.ofWord (String.ofList w) = k
  have plain : k ≠ .operator ∧ k ≠ .leftBrace := by
    have all : ∀ pair ∈ Kind.reserved, pair.2 ≠ .operator ∧ pair.2 ≠ .leftBrace := by decide
    rcases Kind.ofWord_cases (String.ofList w) with name | reserved
    · rw [← kind, name]
      decide
    · rw [kind] at reserved
      exact all _ reserved
  have lexed : lex (w ++ ' ' :: behind) =
      .cons ⟨k, "", String.ofList w, .origin, Position.origin.advance w⟩
        (lexAt (Position.origin.advance w) "" (' ' :: behind)) :=
    lexAt_token found (congrArg some kind)
  generalize word : (⟨k, "", String.ofList w, .origin, Position.origin.advance w⟩ : Token) = t
    at lexed
  have is : t.kind = k := by rw [← word]
  have whole : t.split = [t] := by
    rw [Token.split, Token.isRun, is, beq_false_of_ne plain.1]
    rfl
  have unmarked (ts : List Token) : t.marked ts = t := by
    rw [Token.marked, is, beq_false_of_ne plain.2]
    rfl
  refine ⟨t, _, ?_, is, Token.stream_unplaced
    (Token.lexAt_unplaced (Position.origin.advance w) .origin "" (' ' :: behind)).1⟩
  rw [Lexed.delivered, clean, lexed, Lexed.cons, Token.stream, List.flatMap_cons, whole,
    List.singleton_append, Token.markObservers, unmarked]
  rfl

end Conformance
