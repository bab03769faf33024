import Conformance.Proofs.Token.Alone
import Conformance.Proofs.Token.Places

/-!
# Tokens around an edit

A source is edited in the middle, and the tokens around the edit stay where they are in their
parts of the source.  So they have the same layout (`Token.Tiles.layouts_eq`).  The mark of a
brace hangs on the next token: behind the edit all marks stay (`face_behind`), and in front of it
all but that of the last token (`face_ahead`).
-/

namespace Conformance

/-! ## Layout -/

section
variable {source : List Char} {a b : Nat}

theorem between_left (front back : List Char) (le : b ≤ front.length) :
    between (front ++ back) a b = between front a b := by
  rw [between, between, List.drop_append, List.take_append_of_le_length]
  rw [List.length_drop]
  omega

theorem between_right (front back : List Char) (le : front.length ≤ a) :
    between (front ++ back) a b = between back (a - front.length) (b - front.length) := by
  have lengths : b - front.length - (a - front.length) = b - a := by omega
  rw [between, between, List.drop_append, List.drop_eq_nil_of_le le, lengths, List.nil_append]

end

namespace Token

/-- What a token is, up to the mark of a brace, and where it begins. -/
def spot (t : Token) : Lexeme × Nat := (t.lexeme, t.start.offset)

/-- Tokens that move along with the text they stand in keep their layout. -/
theorem Tiles.layouts_eq {source source' : List Char} {q : Nat} {p : Nat → Nat}
    {ts us : List Token} (tiles : Tiles source q ts) (tiles' : Tiles source' (p q) us)
    (same : us.map spot = ts.map fun t => (t.lexeme, p t.start.offset))
    (further : ∀ a n, q ≤ a → p (a + n) = p a + n)
    (agree : ∀ a b, q ≤ a → b ≤ reach q ts →
      between source' (p a) (p b) = between source a b) :
    us.map Token.layout = ts.map Token.layout := by
  induction ts generalizing q us with
  | nil =>
    obtain rfl := List.map_eq_nil_iff.mp same
    rfl
  | cons t ts ih =>
    obtain ⟨u, us, rfl, here, others⟩ := List.map_eq_cons_iff.mp same
    obtain ⟨lexeme, start⟩ := Prod.mk.inj here
    have text : u.text = t.text := congrArg Lexeme.text lexeme
    have first := tiles.1.start
    have last := tiles.1.stop
    have reached := tiles.2.le_reach
    have layout : u.layout = t.layout := by
      apply String.toList_injective
      rw [tiles'.1.layout, tiles.1.layout, start]
      exact agree _ _ (Nat.le_refl q) (by rw [reach]; omega)
    have stop : u.stop.offset = p t.stop.offset := by
      rw [tiles'.1.stop, start, text, last, further _ _ (by omega)]
    have behind := ih tiles.2 (stop ▸ tiles'.2) others (fun a n le => further a n (by omega))
      fun a b le => agree a b (by omega)
    rw [List.map_cons, List.map_cons, layout, behind]

end Token

/-- The tokens of a source are all different. -/
theorem nodup_delivered (source : List Char) : (lex source).delivered.Nodup :=
  (pairwise_delivered source).imp fun less same => by
    rw [same] at less
    exact Nat.lt_irrefl _ less

/-! ## Marks -/

theorem take_faces (ls ms : List Lexeme) (l : Lexeme) :
    (faces (ls ++ l :: ms)).take ls.length = (faces (ls ++ [l])).take ls.length := by
  induction ls with
  | nil => rfl
  | cons r ls ih =>
    have next : (ls ++ l :: ms).head? = (ls ++ [l]).head? := by cases ls <;> rfl
    simp only [List.cons_append, faces, List.length_cons, List.take_succ_cons, ih, next]

section
variable {source : List Char} (clean : (lex source).stray? = none)
include clean

/-- The marks of tokens up to the end hang on these tokens alone. -/
theorem face_behind {front back : List Token} (whole : (lex source).delivered = front ++ back) :
    back.map Token.face = faces (back.map Token.lexeme) := by
  have all := congrArg (List.drop front.length) (face_delivered clean)
  rw [drop_faces, whole, List.map_append, List.map_append] at all
  simpa using all

/-- The marks of tokens from the start hang on these tokens and the next one. -/
theorem face_ahead {front back : List Token} {t : Token}
    (whole : (lex source).delivered = front ++ t :: back) :
    front.map Token.face = (faces (front.map Token.lexeme ++ [t.lexeme])).take front.length := by
  have all := congrArg (List.take front.length) (face_delivered clean)
  rw [whole, List.map_append, List.map_append, List.map_cons, List.map_cons] at all
  have cut := take_faces (front.map Token.lexeme) (back.map Token.lexeme) t.lexeme
  rw [List.length_map] at cut
  rw [cut] at all
  simpa using all

end

end Conformance
