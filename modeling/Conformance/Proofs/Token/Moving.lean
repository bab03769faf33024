import Conformance.Proofs.Token.Relocation

/-!
# Lexing in another place

A text keeps its lexemes where it is moved (`Lexes.relocate`), and so do tokens
(`Stand.relocate`), unless a directive or a comment at its end would go on.
-/

namespace Conformance

open Pattern

/-! ## Turns -/

/-- A word character where something matches is that of a name. -/
theorem isNamePart_of_front? {c : Char} {cs : List Char} {found : Lexical × Nat}
    (h : Lexical.front? (c :: cs) = some found) (word : Text.isWordChar c = true) :
    isNamePart c = true := by
  rwa [Text.isWordChar, if_pos (Lexical.toNat_lt_of_front? h)] at word

/-- No word of another script begins a text. -/
def StartsPlain (u : List Char) : Prop :=
  ∀ c ∈ u.head?, Text.isWordChar c = true → isNamePart c = true

theorem Turn.startsPlain {text rest : List Char} {o : Option Lexeme} (h : Turn text o rest) :
    StartsPlain (text ++ rest) := by
  intro c mem word
  have ne := h.ne_nil
  cases text with
  | nil => exact absurd rfl ne
  | cons d ds =>
    cases mem
    cases h with
    | blank space =>
      have all : ∀ d ∈ signs, isSpace d = true → Text.isWordChar d = false :=
        List.all_iff_forall_prop.mp (by decide)
      rw [all c (mem_signs_of_space space) space] at word
      cases word
    | comment found => exact isNamePart_of_front? found word
    | angle angle =>
      have all : ∀ d ∈ signs, isAngle d = true → Text.isWordChar d = false :=
        List.all_iff_forall_prop.mp (by decide)
      rw [all c (mem_signs_of_operator (isAngle_operator angle).1) angle] at word
      cases word
    | token found => exact isNamePart_of_front? found word

theorem Lexes.startsPlain {a rest : List Char} {ls : List Lexeme} (h : Lexes a ls rest)
    (behind : StartsPlain rest) : StartsPlain (a ++ rest) := by
  cases h with
  | done => exact behind
  | turn first others =>
    rw [List.append_assoc]
    exact first.startsPlain

/-- A turn stays where it is moved. -/
theorem Turn.relocate {text b u w : List Char} {o : Option Lexeme} (h : Turn text o (b ++ u))
    (halts : Halts w) (tame : ∀ c ∈ text.head?, opensFar c = true → Tame (text ++ b) u w)
    (dot : ∀ l ∈ o, l.kind = .number → w.head? ≠ some '.')
    (inside : b ≠ [] ∨ ∃ l, o = some l ∧ l.kind ≠ .directive)
    (plain : StartsPlain (b ++ u)) : Turn text o (b ++ w) := by
  have le : text.length ≤ (text ++ b).length := by simp
  have less (ne : b ≠ []) : text.length < (text ++ b).length := by
    have positive := List.length_pos_iff.mpr ne
    rw [List.length_append]
    omega
  have near : ∀ c ∈ (text ++ b).head?, opensFar c = true → Tame (text ++ b) u w := by
    have first := h.ne_nil
    cases text with
    | nil => exact absurd rfl first
    | cons d ds => exact tame
  have edge : ∀ c ∈ ((text ++ b ++ u).drop text.length).head?, Text.isWordChar c = true →
      isNamePart c = true := by
    rw [List.append_assoc, List.drop_left]
    exact plain
  cases h with
  | blank space => exact .blank space
  | comment found =>
    have ne : b ≠ [] := by
      rcases inside with ne | ⟨l, eq, -⟩
      · exact ne
      · cases eq
    rw [← List.append_assoc] at found
    have moved := front?_relocate found le halts near (by simp) (fun _ => less ne) edge
    rw [List.append_assoc] at moved
    exact .comment moved
  | angle first others =>
    refine .angle first fun d mem => ?_
    rw [List.takeWhile_append] at mem others
    have none : w.takeWhile isOperatorChar = [] := by
      cases w with
      | nil => rfl
      | cons c cs => exact List.takeWhile_cons_of_neg (by simp [(not_of_halts (halts c rfl)).1])
    rw [none, List.append_nil] at mem
    split at mem
    next whole =>
      rw [if_pos whole] at others
      exact others d (List.mem_append_left _ mem)
    next part =>
      rw [if_neg part] at others
      exact others d mem
  | @token text rest l k found kind whole =>
    rw [← List.append_assoc] at found
    have moved := front?_relocate found le halts near
      (by
        rintro rfl
        exact dot _ rfl (Option.some.inj kind).symm)
      (by
        rintro (rfl | rfl | rfl)
        · cases kind
        · rcases inside with ne | ⟨l, eq, no⟩
          · exact less ne
          · cases eq
            exact absurd (Option.some.inj kind).symm no
        · cases kind)
      edge
    rw [List.append_assoc] at moved
    exact .token moved kind whole

theorem Tame.mono {a b u w : List Char} (tame : Tame a u w) (sub : ∀ c ∈ b, c ∈ a) :
    Tame b u w :=
  ⟨fun mem => tame.comment (sub _ mem), fun mem => tame.triple (sub _ mem)⟩

/-- A text in front of the same text is lexed as before, whatever is behind the two. -/
theorem Lexes.relocate {a b u w : List Char} {ls : List Lexeme} (h : Lexes a ls (b ++ u))
    (ne : b ≠ []) (halts : Halts w) (tame : Tame (a ++ b) u w)
    (dot : ∀ l ∈ ls, l.kind = .number → w.head? ≠ some '.') (plain : StartsPlain (b ++ u)) :
    Lexes a ls (b ++ w) := by
  generalize eq : b ++ u = behind at h
  induction h with
  | done => exact .done
  | @turn text a rest o ls first others ih =>
    subst eq
    have further := ih (tame.mono (by simp +contextual)) (fun l mem => dot l (by simp [mem])) rfl
    rw [← List.append_assoc] at first
    have moved := first.relocate halts (fun _ _ _ => tame.mono (by simp +contextual))
      (fun l mem => dot l (by simp_all)) (.inl (by simp [ne]))
      (by
        rw [List.append_assoc]
        exact others.startsPlain plain)
    rw [List.append_assoc] at moved
    exact .turn moved further

/-! ## Tokens -/

namespace Stand

variable {ts : List Token} {a u w : List Char}

theorem text_ne_nil {t : Token} (h : Stand (t :: ts) a u) : a ≠ [] := by
  cases h with
  | cons layout text others => simp [text.ne_nil]

/-- The text of tokens with their layout. -/
theorem eq_join (h : Stand ts a u) :
    a = (String.join (ts.map fun t => t.layout ++ t.text)).toList := by
  induction h with
  | nil => rfl
  | cons layout text others ih =>
    rw [List.map_cons, String.join_cons, String.toList_append, String.toList_append, ← ih,
      List.append_assoc]

/-- Tokens stand where their text is moved. -/
theorem relocate (h : Stand ts a u) (halts : Halts w) (tame : Tame a u w)
    (dot : ∀ t ∈ ts, t.kind = .number → w.head? ≠ some '.')
    (last : ∀ t, ts.getLast? = some t → t.kind ≠ .directive) (plain : StartsPlain u) :
    Stand ts a w := by
  induction h with
  | nil => exact .nil
  | @cons t ts a u layout text others ih =>
    have further := ih (tame.mono (by simp +contextual))
      (fun t mem => dot t (List.mem_cons_of_mem _ mem))
      (fun v is => last v (by rw [List.getLast?_cons, is]; rfl)) plain
    have front := others.lexes.startsPlain plain
    have kinds : t.lexeme.kind = .number ∨ t.lexeme.kind = .directive → t.lexeme.kind = t.kind := by
      unfold Token.lexeme Kind.unmarked
      cases t.kind <;> simp
    refine .cons ?_ (text.relocate halts (fun _ _ _ => tame.mono (by simp +contextual)) ?_ ?_ front)
      further
    · rw [← List.append_assoc] at layout ⊢
      refine layout.relocate (by simp [text.ne_nil]) halts (tame.mono (by simp +contextual))
        (by simp) ?_
      rw [List.append_assoc]
      exact text.startsPlain
    · intro l mem is
      cases mem
      exact dot t List.mem_cons_self ((kinds (.inl is)).symm.trans is)
    · cases ts with
      | nil =>
        refine .inr ⟨_, rfl, fun is => ?_⟩
        exact last t rfl ((kinds (.inr is)).symm.trans is)
      | cons v vs => exact .inl others.text_ne_nil

/-- The stretch of tokens is lexed as their lexemes. -/
theorem lexes_stretch (h : Stand ts a u) :
    Lexes (Token.stretch ts).toList (ts.map Token.lexeme) u := by
  cases h with
  | nil => exact .done
  | @cons t ts a u layout text others =>
    rw [Token.stretch, String.toList_append, ← others.eq_join]
    exact .turn text others.lexes

end Stand

end Conformance
