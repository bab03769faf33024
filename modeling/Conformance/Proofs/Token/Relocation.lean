import Conformance.Proofs.Token.Reading
import Mathlib.Tactic.Tauto

/-!
# Matches in another place

What matches in front of a text hangs on what is behind it in three ways only.  A token may
go on behind the text, a comment or a literal with three quotes may be closed there, and a
dot may go on as a fraction.

So a match stays the same in front of another text that begins with a blank or a mark
(`Halts`) and closes nothing that was open before (`Tame`), which is `front?_relocate`.
-/

namespace Conformance

namespace Pattern

/-- What no token goes on with: a blank or a mark. -/
def halts (c : Char) : Bool := isSpace c || isMark c

theorem not_of_halts {c : Char} (h : halts c = true) :
    isOperatorChar c = false ∧ isNamePart c = false ∧ isHexPart c = false ∧
      c ∉ ['#', '/', '"', '*', '+', '-', 'x', 'o', 'b', 'e', 'E', '\x60'] ∧
      Text.isWordChar c = false ∧ c.isDigit = false ∧ isDigitPart c = false := by
  have mem : c ∈ signs := by
    rcases Bool.or_eq_true_iff.mp h with space | mark
    · exact mem_signs_of_space space
    · exact mem_signs_of_mark mark
  have all : ∀ c ∈ signs, halts c = true → isOperatorChar c = false ∧ isNamePart c = false ∧
      isHexPart c = false ∧
      c ∉ ['#', '/', '"', '*', '+', '-', 'x', 'o', 'b', 'e', 'E', '\x60'] ∧
      Text.isWordChar c = false ∧ c.isDigit = false ∧ isDigitPart c = false :=
    List.all_iff_forall_prop.mp (by decide)
  exact all c mem h

end Pattern

open Pattern

/-- A text begins with a blank or a mark, if with anything. -/
def Halts (u : List Char) : Prop := ∀ c ∈ u.head?, halts c = true

/-- Behind a text, no comment is closed that was open and no literal with three quotes. -/
structure Tame (a u w : List Char) : Prop where
  /-- Comments are closed as before. -/
  comment : '/' ∈ a → ['*', '/'] <:+: w → ['*', '/'] <:+: u
  /-- So are literals with three quotes. -/
  triple : '"' ∈ a → ['"', '"', '"'] <:+: w → ['"', '"', '"'] <:+: u

/-! ## Runs -/

section
variable {p : Char → Bool} {x u w : List Char}

theorem dropWhile_eq_drop (p : Char → Bool) (cs : List Char) :
    cs.dropWhile p = cs.drop (run p cs) := by
  have split := congrArg (List.drop (run p cs)) (List.takeWhile_append_dropWhile (p := p) (l := cs))
  rwa [run, List.drop_left] at split

theorem run_mono {q : Char → Bool} (imp : ∀ c, p c = true → q c = true) (cs : List Char) :
    run p cs ≤ run q cs := by
  induction cs with
  | nil => exact Nat.le_refl 0
  | cons c cs ih =>
    by_cases is : p c = true
    · simpa [run, is, imp c is] using ih
    · simp [run, is]

theorem takeWhile_relocate_of_lt (h : run p (x ++ u) < x.length) :
    (x ++ w).takeWhile p = (x ++ u).takeWhile p := by
  have short : (x.takeWhile p).length ≠ x.length := by
    intro whole
    rw [run, List.takeWhile_append, if_pos whole, List.length_append] at h
    omega
  rw [List.takeWhile_append, if_neg short, List.takeWhile_append, if_neg short]

theorem takeWhile_relocate (h : run p (x ++ u) ≤ x.length)
    (stops : ∀ c ∈ w.head?, p c = false) : (x ++ w).takeWhile p = (x ++ u).takeWhile p := by
  rcases Nat.lt_or_eq_of_le h with less | same
  · exact takeWhile_relocate_of_lt less
  · have behind : w.takeWhile p = [] := by
      cases w with
      | nil => rfl
      | cons c cs => simp [stops c rfl]
    have whole := takeWhile_of_run same
    have all : ∀ c ∈ x, p c = true := fun c mem => List.mem_takeWhile_imp (whole.symm ▸ mem)
    rw [whole, List.takeWhile_append_of_pos all, behind, List.append_nil]

theorem run_relocate (h : run p (x ++ u) ≤ x.length) (stops : ∀ c ∈ w.head?, p c = false) :
    run p (x ++ w) = run p (x ++ u) :=
  congrArg List.length (takeWhile_relocate h stops)

end

/-! ## Closing marks -/

theorem infix_relocate {p x u w : List Char} (out : ∀ c ∈ w.head?, c ∉ p)
    (closes : p <:+: w → p <:+: u) (h : p <:+: x ++ w) : p <:+: x ++ u := by
  rcases List.infix_append_iff.mp h with left | right | ⟨a, b, rfl, suffix, front⟩
  · exact left.trans (List.infix_append [] x u)
  · exact (closes right).trans (List.infix_append_right ..)
  · cases b with
    | nil =>
      rw [List.append_nil]
      exact suffix.isInfix.trans (List.infix_append [] x u)
    | cons c cs =>
      cases w with
      | nil => cases List.prefix_nil.mp front
      | cons d ds =>
        cases (List.cons_prefix_cons.mp front).1
        exact absurd (List.mem_append_right a List.mem_cons_self) (out c rfl)

theorem commentEnd_eq_none_iff {cs : List Char} :
    commentEnd cs = none ↔ ¬['*', '/'] <:+: cs := by
  induction cs with
  | nil => simp [commentEnd]
  | cons c cs ih =>
    rw [List.infix_cons_iff]
    unfold commentEnd
    split
    next eq =>
      rw [eq]
      simp
    next open' eq =>
      cases eq
      have front : ¬['*', '/'] <+: c :: cs := by
        rintro ⟨rest, eq⟩
        cases eq
        exact open' rest rfl rfl
      simp [front, ih]
    next eq => cases eq

theorem tripleEnd_eq_none_iff {cs : List Char} :
    tripleEnd cs = none ↔ ¬['"', '"', '"'] <:+: cs := by
  induction cs with
  | nil => simp [tripleEnd]
  | cons c cs ih =>
    rw [List.infix_cons_iff]
    unfold tripleEnd
    split
    next eq =>
      rw [eq]
      simp
    next open' eq =>
      cases eq
      have front : ¬['"', '"', '"'] <+: c :: cs := by
        rintro ⟨rest, eq⟩
        cases eq
        exact open' rest rfl rfl
      simp [front, ih]
    next eq => cases eq

theorem commentEnd_cons_of_ne {c d : Char} {cs : List Char} (ne : ¬(c = '*' ∧ d = '/')) :
    commentEnd (c :: d :: cs) = (commentEnd (d :: cs)).map (· + 1) := by
  rw [commentEnd]
  rintro rest rfl eq
  exact ne ⟨rfl, (List.cons.inj eq).1⟩

theorem two_le_commentEnd {cs : List Char} {n : Nat} (h : commentEnd cs = some n) : 2 ≤ n := by
  induction cs generalizing n with
  | nil => cases h
  | cons c cs ih =>
    unfold commentEnd at h
    split at h
    next => cases h; exact Nat.le_refl 2
    next eq =>
      cases eq
      obtain ⟨m, found, rfl⟩ := Option.map_eq_some_iff.mp h
      exact Nat.le_succ_of_le (ih found)
    next => cases h

theorem commentEnd_relocate {x u w : List Char} {n : Nat} (h : commentEnd (x ++ u) = some n)
    (le : n ≤ x.length) : commentEnd (x ++ w) = some n := by
  induction x generalizing n with
  | nil =>
    have low := two_le_commentEnd h
    simp only [List.length_nil] at le
    omega
  | cons c x ih =>
    have low := two_le_commentEnd h
    cases x with
    | nil =>
      simp only [List.length_cons, List.length_nil] at le
      omega
    | cons d x =>
      by_cases closes : c = '*' ∧ d = '/'
      · obtain ⟨rfl, rfl⟩ := closes
        exact h
      · rw [List.cons_append, List.cons_append, commentEnd_cons_of_ne closes] at h ⊢
        obtain ⟨m, found, rfl⟩ := Option.map_eq_some_iff.mp h
        rw [← List.cons_append] at found ⊢
        rw [ih found (Nat.le_of_succ_le_succ le)]
        rfl

theorem tripleEnd_cons_of_ne {c d e : Char} {cs : List Char}
    (ne : ¬(c = '"' ∧ d = '"' ∧ e = '"')) :
    tripleEnd (c :: d :: e :: cs) = (tripleEnd (d :: e :: cs)).map (· + 1) := by
  rw [tripleEnd]
  rintro rest rfl eq
  exact ne ⟨rfl, (List.cons.inj eq).1, (List.cons.inj (List.cons.inj eq).2).1⟩

theorem three_le_tripleEnd {cs : List Char} {n : Nat} (h : tripleEnd cs = some n) : 3 ≤ n := by
  induction cs generalizing n with
  | nil => cases h
  | cons c cs ih =>
    unfold tripleEnd at h
    split at h
    next => cases h; exact Nat.le_refl 3
    next eq =>
      cases eq
      obtain ⟨m, found, rfl⟩ := Option.map_eq_some_iff.mp h
      exact Nat.le_succ_of_le (ih found)
    next => cases h

theorem tripleEnd_relocate {x u w : List Char} {n : Nat} (h : tripleEnd (x ++ u) = some n)
    (le : n ≤ x.length) : tripleEnd (x ++ w) = some n := by
  induction x generalizing n with
  | nil =>
    have low := three_le_tripleEnd h
    simp only [List.length_nil] at le
    omega
  | cons c x ih =>
    have low := three_le_tripleEnd h
    rcases x with _ | ⟨d, _ | ⟨e, x⟩⟩
    · simp only [List.length_cons, List.length_nil] at le
      omega
    · simp only [List.length_cons, List.length_nil] at le
      omega
    · by_cases closes : c = '"' ∧ d = '"' ∧ e = '"'
      · obtain ⟨rfl, rfl, rfl⟩ := closes
        exact h
      · simp only [List.cons_append] at h ih ⊢
        rw [tripleEnd_cons_of_ne closes] at h ⊢
        obtain ⟨m, found, rfl⟩ := Option.map_eq_some_iff.mp h
        rw [ih found (Nat.le_of_succ_le_succ le)]
        rfl

theorem one_le_quoteEnd {cs : List Char} {n : Nat} (h : quoteEnd cs = some n) : 1 ≤ n := by
  unfold quoteEnd at h
  split at h
  next => cases h; exact Nat.le_refl 1
  next =>
    split at h
    next => cases h
    next => obtain ⟨m, -, rfl⟩ := Option.map_eq_some_iff.mp h; omega
  next => cases h
  next =>
    split at h
    next => cases h
    next => obtain ⟨m, -, rfl⟩ := Option.map_eq_some_iff.mp h; omega
  next => cases h

theorem quoteEnd_escape (c : Char) (cs : List Char) :
    quoteEnd ('\\' :: c :: cs) = if c == '\n' then none else (quoteEnd cs).map (· + 2) := rfl

theorem quoteEnd_cons_of_ne {c : Char} {cs : List Char} (quote : c ≠ '"') (escape : c ≠ '\\') :
    quoteEnd (c :: cs) = if c == '\n' then none else (quoteEnd cs).map (· + 1) := by
  rw [quoteEnd]
  · exact quote
  · exact fun _ _ is _ => escape is
  · exact fun is _ => escape is

theorem quoteEnd_relocate {x u w : List Char} {n : Nat} (h : quoteEnd (x ++ u) = some n)
    (le : n ≤ x.length) : quoteEnd (x ++ w) = some n := by
  have plain {c : Char} {cs : List Char}
      (several : ∀ (d : Char) (ds : List Char), c = '\\' → cs = d :: ds → False)
      (single : c = '\\' → cs = [] → False) : c ≠ '\\' := by
    intro is
    cases cs with
    | nil => exact single is rfl
    | cons d ds => exact several d ds is rfl
  fun_induction quoteEnd x generalizing n with
  | case1 rest => exact h
  | case2 c cs line =>
    rw [List.cons_append, List.cons_append, quoteEnd_escape, if_pos line] at h
    cases h
  | case3 c cs line ih =>
    rw [List.cons_append, List.cons_append, quoteEnd_escape, if_neg line] at h ⊢
    obtain ⟨m, found, rfl⟩ := Option.map_eq_some_iff.mp h
    simp only [List.length_cons] at le
    rw [ih found (by omega)]
    rfl
  | case4 =>
    cases u with
    | nil => cases h
    | cons c cs =>
      rw [List.singleton_append, quoteEnd_escape] at h
      split at h
      next => cases h
      next =>
        obtain ⟨m, found, rfl⟩ := Option.map_eq_some_iff.mp h
        simp only [List.length_singleton] at le
        omega
  | case5 c cs quote several single line =>
    rw [List.cons_append, quoteEnd_cons_of_ne quote (plain several single), if_pos line] at h
    cases h
  | case6 c cs quote several single line ih =>
    rw [List.cons_append, quoteEnd_cons_of_ne quote (plain several single), if_neg line] at h ⊢
    obtain ⟨m, found, rfl⟩ := Option.map_eq_some_iff.mp h
    rw [ih found (Nat.le_of_succ_le_succ le)]
    rfl
  | case7 =>
    have low := one_le_quoteEnd h
    simp only [List.length_nil] at le
    omega

/-! ## Comments and directives -/

section
variable {x u w : List Char} {n : Nat}

theorem comment_relocate (h : comment (x ++ u) = some n) (less : n < x.length) :
    comment (x ++ w) = some n := by
  have positive := (comment_bounds h).1
  rcases x with _ | ⟨c, _ | ⟨d, x⟩⟩
  · simp only [List.length_nil] at less
    omega
  · simp only [List.length_singleton] at less
    omega
  · by_cases slash : c = '/'
    · subst slash
      by_cases line : d = '/'
      · subst line
        have length : 2 + run inLine (x ++ u) = n := Option.some.inj h
        simp only [List.length_cons] at less
        have same := takeWhile_relocate_of_lt (w := w) (by omega : run inLine (x ++ u) < x.length)
        rw [← length, run, ← same]
        rfl
      · by_cases block : d = '*'
        · subst block
          have inner : (commentEnd (x ++ u)).map (· + 2) = some n := h
          obtain ⟨m, found, rfl⟩ := Option.map_eq_some_iff.mp inner
          simp only [List.length_cons] at less
          have same := commentEnd_relocate (w := w) found (by omega)
          exact congrArg (Option.map (· + 2)) same
        · simp [Pattern.comment, line, block] at h
    · rw [List.cons_append, comment_eq_none slash] at h
      cases h

theorem comment_relocate_none (h : comment (x ++ u) = none) (ne : x ≠ []) (halts : Halts w)
    (closes : '/' ∈ x → ['*', '/'] <:+: w → ['*', '/'] <:+: u) : comment (x ++ w) = none := by
  have out : ∀ c ∈ w.head?, c ≠ '/' ∧ c ≠ '*' := by
    intro c mem
    have others := (not_of_halts (halts c mem)).2.2.2.1
    simp only [List.mem_cons, not_or] at others
    exact ⟨others.2.1, others.2.2.2.1⟩
  rcases x with _ | ⟨c, _ | ⟨d, x⟩⟩
  · exact absurd rfl ne
  · by_cases slash : c = '/'
    · subst slash
      cases w with
      | nil => rfl
      | cons e es => simp [Pattern.comment, out e rfl]
    · exact comment_eq_none slash
  · by_cases slash : c = '/'
    · subst slash
      by_cases line : d = '/'
      · subst line
        cases h
      · by_cases block : d = '*'
        · subst block
          have inner : (commentEnd (x ++ u)).map (· + 2) = none := h
          have open' := commentEnd_eq_none_iff.mp (Option.map_eq_none_iff.mp inner)
          have still : ¬['*', '/'] <:+: x ++ w := fun within =>
            open' (infix_relocate (fun c mem => by simp [out c mem])
              (closes List.mem_cons_self) within)
          exact congrArg (Option.map (· + 2)) (commentEnd_eq_none_iff.mpr still)
        · simp [Pattern.comment, line, block]
    · exact comment_eq_none slash

theorem directive_relocate (h : directive (x ++ u) = some n) (less : n < x.length) :
    directive (x ++ w) = some n := by
  rcases x with _ | ⟨c, x⟩
  · simp only [List.length_nil] at less
    omega
  · by_cases pound : c = '#'
    · subst pound
      rw [List.cons_append, directive] at h ⊢
      split at h
      next word =>
        have length := Option.some.inj h
        simp only [List.length_cons] at less
        have line : run inLine (x ++ u) < x.length := by omega
        have inside : ∀ c, Text.isWordChar c = true → inLine c = true := by
          rintro c is
          refine bne_iff_ne.mpr ?_
          rintro rfl
          exact absurd is (by decide)
        have shorter := Nat.lt_of_le_of_lt (run_mono inside (x ++ u)) line
        rw [takeWhile_relocate_of_lt shorter, if_pos word, ← length, run, run,
          takeWhile_relocate_of_lt line]
      next => cases h
    · rw [List.cons_append, directive_eq_none pound] at h
      cases h

theorem takeWhile_eq_of_edge {p q : Char → Bool} (imp : ∀ c, p c = true → q c = true)
    {cs : List Char} (edge : ∀ c ∈ (cs.dropWhile p).head?, q c = false) :
    cs.takeWhile q = cs.takeWhile p := by
  induction cs with
  | nil => rfl
  | cons c cs ih =>
    by_cases is : p c = true
    · rw [List.dropWhile_cons_of_pos is] at edge
      rw [List.takeWhile_cons_of_pos is, List.takeWhile_cons_of_pos (imp c is), ih edge]
    · rw [List.dropWhile_cons_of_neg is] at edge
      have no : ¬q c = true := Bool.eq_false_iff.mp (edge c rfl)
      rw [List.takeWhile_cons_of_neg is, List.takeWhile_cons_of_neg no]

/-- A plain name is the run of its characters. -/
theorem run_of_plainName {cs : List Char} (h : plainName cs = some n) :
    run isNamePart cs = n := by
  unfold plainName at h
  split at h
  next c cs =>
    split at h
    next start =>
      have length := Option.some.inj h
      rw [run, List.takeWhile_cons_of_pos (isNamePart_of_isNameStart start), List.length_cons,
        ← length, run]
      omega
    next => cases h
  next => cases h

/-- A pound name stays no directive. -/
theorem directive_relocate_none {x : List Char} (h : directive ('#' :: (x ++ u)) = none)
    (name : plainName (x ++ u) = some n) (le : n ≤ x.length) (halts : Halts w)
    (edge : ∀ c ∈ ((x ++ u).drop n).head?, Text.isWordChar c = false) :
    directive ('#' :: (x ++ w)) = none := by
  have length := run_of_plainName name
  have dropped (v : List Char) (run : run isNamePart (x ++ v) = n) :
      (x ++ v).dropWhile isNamePart = x.drop n ++ v := by
    rw [← List.drop_append_of_le_length le, ← run, dropWhile_eq_drop]
  have same := takeWhile_relocate (w := w) (length ▸ le : run isNamePart (x ++ u) ≤ x.length)
    fun c mem => (not_of_halts (halts c mem)).2.1
  have length' : run isNamePart (x ++ w) = n := by rw [run, same]; exact length
  have here : (x ++ u).takeWhile Text.isWordChar = (x ++ u).takeWhile isNamePart := by
    refine takeWhile_eq_of_edge (fun c => isWordChar_of_isNamePart) fun c mem => edge c ?_
    rw [dropped u length] at mem
    rwa [List.drop_append_of_le_length le]
  have there : (x ++ w).takeWhile Text.isWordChar = (x ++ w).takeWhile isNamePart := by
    refine takeWhile_eq_of_edge (fun c => isWordChar_of_isNamePart) fun c mem => ?_
    rw [dropped w length'] at mem
    rw [List.drop_append_of_le_length le] at edge
    cases rest : x.drop n with
    | nil =>
      rw [rest] at mem
      exact (not_of_halts (halts c mem)).2.2.2.2.1
    | cons d ds =>
      rw [rest] at mem edge
      exact edge c mem
  rw [directive, there, same, ← here]
  rw [directive] at h
  split at h
  next => cases h
  next word => rw [if_neg word]

/-! ## Numbers -/

/-- What a number does not go on with. -/
structure StopsNumber (u : List Char) : Prop where
  /-- A blank or a mark follows. -/
  halts : Halts u
  /-- No fraction follows. -/
  dot : u.head? ≠ some '.'

theorem StopsNumber.head (stops : StopsNumber w) : ∀ c ∈ w.head?, c ≠ '.' ∧ c ≠ 'e' ∧ c ≠ 'E' ∧
    c ≠ '+' ∧ c ≠ '-' ∧ c.isDigit = false ∧ isDigitPart c = false ∧ isHexPart c = false ∧
    c ∉ ['x', 'o', 'b'] := by
  intro c mem
  obtain ⟨-, -, hex, others, -, digit, part⟩ := not_of_halts (stops.halts c mem)
  simp only [List.mem_cons, not_or] at others ⊢
  refine ⟨?_, by tauto, by tauto, by tauto, by tauto, digit, part, hex, by tauto⟩
  rintro rfl
  exact stops.dot mem

theorem fraction_of_ne {c : Char} {cs : List Char} (ne : c ≠ '.') : fraction (c :: cs) = 0 := by
  unfold fraction
  split
  next eq => exact absurd (List.cons.inj eq).1 ne
  next => rfl

theorem fraction_dot {d : Char} (cs : List Char) :
    fraction ('.' :: d :: cs) = if d.isDigit then 2 + run isDigitPart cs else 0 := rfl

theorem fraction_relocate (le : fraction (x ++ u) ≤ x.length) (stops : StopsNumber w) :
    fraction (x ++ w) = fraction (x ++ u) := by
  have head := stops.head
  rcases x with _ | ⟨c, _ | ⟨d, x⟩⟩
  · have none : fraction u = 0 := Nat.le_zero.mp le
    rw [List.nil_append, List.nil_append, none]
    cases w with
    | nil => rfl
    | cons c cs => exact fraction_of_ne (head c rfl).1
  · by_cases dot : c = '.'
    · subst dot
      have none : fraction ('.' :: u) = 0 := by
        cases u with
        | nil => rfl
        | cons d cs =>
          rw [List.singleton_append, fraction_dot] at le
          rw [fraction_dot]
          split at le
          next => simp only [List.length_singleton] at le; omega
          next no => exact if_neg no
      rw [List.singleton_append, List.singleton_append, none]
      cases w with
      | nil => rfl
      | cons d cs => simp [fraction_dot, (head d rfl).2.2.2.2.2.1]
    · exact (fraction_of_ne dot).trans (fraction_of_ne dot).symm
  · by_cases dot : c = '.'
    · subst dot
      simp only [List.cons_append, fraction_dot] at le ⊢
      split
      next digit =>
        rw [if_pos digit, List.length_cons, List.length_cons] at le
        have short : run isDigitPart (x ++ u) ≤ x.length := by omega
        rw [run_relocate short fun e mem => (head e mem).2.2.2.2.2.2.1]
      next => rfl
    · exact (fraction_of_ne dot).trans (fraction_of_ne dot).symm

theorem sign_of_ne {c : Char} {cs : List Char} (plus : c ≠ '+') (minus : c ≠ '-') :
    sign (c :: cs) = 0 := by
  unfold sign
  split
  next eq => exact absurd (List.cons.inj eq).1 plus
  next eq => exact absurd (List.cons.inj eq).1 minus
  next => rfl

theorem exponent_of_ne {c : Char} {cs : List Char} (lower : c ≠ 'e') (upper : c ≠ 'E') :
    exponent (c :: cs) = 0 := by
  unfold exponent
  split
  next eq => exact absurd (List.cons.inj eq).1 lower
  next eq => exact absurd (List.cons.inj eq).1 upper
  next => rfl

/-- The sign and the digits of an exponent, behind its letter. -/
def power (cs : List Char) : Nat :=
  let digits := run Char.isDigit (cs.drop (sign cs))
  if 0 < digits then 1 + sign cs + digits else 0

theorem power_relocate (le : power (x ++ u) ≤ x.length + 1) (stops : StopsNumber w) :
    power (x ++ w) = power (x ++ u) := by
  have head := stops.head
  cases x with
  | nil =>
    have none : power u = 0 := by
      simp only [power, List.nil_append, List.length_nil] at le ⊢
      split at le
      next => omega
      next no => exact if_neg no
    rw [List.nil_append, List.nil_append, none]
    cases w with
    | nil => rfl
    | cons c cs =>
      obtain ⟨-, -, -, plus, minus, digit, -⟩ := head c rfl
      simp [power, sign_of_ne plus minus, run, digit]
  | cons c x =>
    have same : sign (c :: x ++ w) = sign (c :: x ++ u) := by
      unfold sign
      simp only [List.cons_append]
      split <;> split <;> simp_all
    have low : sign (c :: x ++ u) ≤ (c :: x).length := by
      have one : sign (c :: x ++ u) ≤ 1 := by
        unfold sign
        split <;> simp
      simp only [List.length_cons]
      omega
    have digits : run Char.isDigit (((c :: x).drop (sign (c :: x ++ u))) ++ w) =
        run Char.isDigit (((c :: x).drop (sign (c :: x ++ u))) ++ u) := by
      refine run_relocate ?_ fun d mem => (head d mem).2.2.2.2.2.1
      simp only [power] at le
      rw [List.drop_append_of_le_length low] at le
      rw [List.length_drop]
      split at le
      next => omega
      next no => omega
    simp only [power]
    rw [same, List.drop_append_of_le_length low, List.drop_append_of_le_length low, digits]

theorem exponent_relocate (le : exponent (x ++ u) ≤ x.length) (stops : StopsNumber w) :
    exponent (x ++ w) = exponent (x ++ u) := by
  have head := stops.head
  cases x with
  | nil =>
    have none : exponent u = 0 := Nat.le_zero.mp le
    rw [List.nil_append, List.nil_append, none]
    cases w with
    | nil => rfl
    | cons c cs => exact exponent_of_ne (head c rfl).2.1 (head c rfl).2.2.1
  | cons c x =>
    rw [List.cons_append] at le
    rw [List.cons_append, List.cons_append]
    by_cases lower : c = 'e'
    · subst lower
      exact power_relocate le stops
    · by_cases upper : c = 'E'
      · subst upper
        exact power_relocate le stops
      · exact (exponent_of_ne lower upper).trans (exponent_of_ne lower upper).symm

/-- The part of a number in front of its exponent. -/
def mantissa (cs : List Char) : Nat :=
  let whole := 1 + run isDigitPart cs.tail
  whole + fraction (cs.drop whole)

theorem decimal_cons {c : Char} {cs : List Char} (digit : c.isDigit = true) :
    decimal (c :: cs) = some (mantissa (c :: cs) +
      exponent ((c :: cs).drop (mantissa (c :: cs)))) := if_pos digit

theorem mantissa_relocate {c : Char} (le : mantissa (c :: x ++ u) ≤ (c :: x).length)
    (stops : StopsNumber w) : mantissa (c :: x ++ w) = mantissa (c :: x ++ u) := by
  simp only [mantissa, List.cons_append, List.tail_cons] at le ⊢
  have first : run isDigitPart (x ++ u) ≤ x.length := by
    rw [List.length_cons] at le
    omega
  have low : 1 + run isDigitPart (x ++ u) ≤ (c :: x).length := by
    rw [List.length_cons]
    omega
  rw [run_relocate (w := w) first fun d mem => (stops.head d mem).2.2.2.2.2.2.1,
    ← List.cons_append, ← List.cons_append, List.drop_append_of_le_length low,
    List.drop_append_of_le_length low]
  rw [← List.cons_append, List.drop_append_of_le_length low] at le
  have rest : fraction ((c :: x).drop (1 + run isDigitPart (x ++ u)) ++ u) ≤
      ((c :: x).drop (1 + run isDigitPart (x ++ u))).length := by
    rw [List.length_drop]
    omega
  rw [fraction_relocate rest stops]

theorem decimal_relocate (h : decimal (x ++ u) = some n) (le : n ≤ x.length)
    (stops : StopsNumber w) : decimal (x ++ w) = some n := by
  have positive := (decimal_bounds h).1
  cases x with
  | nil =>
    simp only [List.length_nil] at le
    omega
  | cons c x =>
    rw [List.cons_append] at h ⊢
    cases digit : c.isDigit with
    | false => simp [decimal, digit] at h
    | true =>
      rw [decimal_cons digit, ← List.cons_append] at h ⊢
      have total := Option.some.inj h
      have low : mantissa (c :: x ++ u) ≤ (c :: x).length := by omega
      rw [List.drop_append_of_le_length low] at total
      have rest : exponent ((c :: x).drop (mantissa (c :: x ++ u)) ++ u) ≤
          ((c :: x).drop (mantissa (c :: x ++ u))).length := by
        rw [List.length_drop]
        omega
      rw [mantissa_relocate low stops, List.drop_append_of_le_length low,
        exponent_relocate rest stops, total]

theorem based_cons (c : Char) (cs : List Char) :
    based ('0' :: c :: cs) =
      if c ∈ ['x', 'o', 'b'] ∧ 0 < run isHexPart cs then some (2 + run isHexPart cs) else none := by
  simp [based]

theorem based_of_ne {c : Char} {cs : List Char} (ne : c ≠ '0') : based (c :: cs) = none := by
  unfold based
  split
  next eq => exact absurd (List.cons.inj eq).1 ne
  next => rfl

theorem based_relocate (h : based (x ++ u) = some n) (le : n ≤ x.length)
    (stops : StopsNumber w) : based (x ++ w) = some n := by
  have positive := (based_bounds h).1
  rcases x with _ | ⟨c, _ | ⟨d, x⟩⟩
  · simp only [List.length_nil] at le
    omega
  · by_cases zero : c = '0'
    · subst zero
      cases u with
      | nil => cases h
      | cons d ds =>
        rw [List.singleton_append, based_cons] at h
        split at h
        next =>
          cases h
          simp only [List.length_singleton] at le
          omega
        next => cases h
    · rw [List.singleton_append, based_of_ne zero] at h
      cases h
  · by_cases zero : c = '0'
    · subst zero
      simp only [List.cons_append, based_cons] at h ⊢
      split at h
      next base =>
        have total := Option.some.inj h
        simp only [List.length_cons] at le
        have same := run_relocate (w := w) (by omega : run isHexPart (x ++ u) ≤ x.length)
          fun e mem => (stops.head e mem).2.2.2.2.2.2.2.1
        rw [same, if_pos base, total]
      next => cases h
    · rw [List.cons_append, based_of_ne zero] at h
      cases h

theorem based_relocate_none (h : based (x ++ u) = none) (ne : x ≠ [])
    (stops : StopsNumber w) : based (x ++ w) = none := by
  rcases x with _ | ⟨c, _ | ⟨d, x⟩⟩
  · exact absurd rfl ne
  · by_cases zero : c = '0'
    · subst zero
      cases w with
      | nil => rfl
      | cons d ds =>
        have out := (stops.head d rfl).2.2.2.2.2.2.2.2
        rw [List.singleton_append, based_cons, if_neg fun base => out base.1]
    · exact based_of_ne zero
  · by_cases zero : c = '0'
    · subst zero
      simp only [List.cons_append, based_cons] at h ⊢
      split at h
      next => cases h
      next no =>
        refine if_neg fun base => no ⟨base.1, ?_⟩
        refine Nat.pos_of_ne_zero fun none => ?_
        have same := run_relocate (w := w) (none ▸ Nat.zero_le _ : run isHexPart (x ++ u) ≤ x.length)
          fun e mem => (stops.head e mem).2.2.2.2.2.2.2.1
        omega
    · exact based_of_ne zero

theorem number_relocate (h : number (x ++ u) = some n) (le : n ≤ x.length)
    (stops : StopsNumber w) : number (x ++ w) = some n := by
  have positive := (number_bounds h).1
  have ne : x ≠ [] := by
    rintro rfl
    simp only [List.length_nil] at le
    omega
  rcases Option.or_eq_some_iff.mp h with is | ⟨no, is⟩
  · exact Option.or_eq_some_iff.mpr (.inl (based_relocate is le stops))
  · exact Option.or_eq_some_iff.mpr
      (.inr ⟨based_relocate_none no ne stops, decimal_relocate is le stops⟩)

/-! ## Names and string literals -/

theorem plainName_relocate (h : plainName (x ++ u) = some n) (le : n ≤ x.length)
    (halts : Halts w) : plainName (x ++ w) = some n := by
  have positive := (plainName_bounds h).1
  cases x with
  | nil =>
    simp only [List.length_nil] at le
    omega
  | cons c x =>
    rw [List.cons_append, plainName] at h ⊢
    split at h
    next start =>
      have total := Option.some.inj h
      simp only [List.length_cons] at le
      have same := run_relocate (w := w) (by omega : run isNamePart (x ++ u) ≤ x.length)
        fun d mem => (not_of_halts (halts d mem)).2.1
      rw [if_pos start, same, total]
    next => cases h

theorem name_relocate (h : name (x ++ u) = some n) (le : n ≤ x.length) (halts : Halts w) :
    name (x ++ w) = some n := by
  have positive := (name_bounds h).1
  cases x with
  | nil =>
    simp only [List.length_nil] at le
    omega
  | cons c x =>
    rw [List.cons_append] at h ⊢
    by_cases quote : c = '\x60'
    · subst quote
      let inner := fun c : Char => c != '\x60' && c != '\n'
      have quoted (v : List Char) : name ('\x60' :: v) =
          if 0 < run inner v && (v.drop (run inner v)).head? == some '\x60' then
            some (run inner v + 2) else none := rfl
      rw [quoted] at h ⊢
      split at h
      next closed =>
        have total := Option.some.inj h
        simp only [List.length_cons] at le
        have less : run inner (x ++ u) < x.length := by omega
        have same : run inner (x ++ w) = run inner (x ++ u) :=
          congrArg List.length (takeWhile_relocate_of_lt less)
        have heads : ((x ++ w).drop (run inner (x ++ u))).head? =
            ((x ++ u).drop (run inner (x ++ u))).head? := by
          rw [List.head?_drop, List.head?_drop, List.getElem?_append_left less,
            List.getElem?_append_left less]
        rw [same, heads, if_pos closed, total]
      next => cases h
    · by_cases dollar : c = '$'
      · subst dollar
        have numbered (v : List Char) : name ('$' :: v) =
            if 0 < run Char.isDigit v then some (1 + run Char.isDigit v)
            else (plainName v).map (· + 1) := rfl
        rw [numbered] at h ⊢
        have digits (low : run Char.isDigit (x ++ u) ≤ x.length) :
            run Char.isDigit (x ++ w) = run Char.isDigit (x ++ u) :=
          run_relocate low fun d mem => (not_of_halts (halts d mem)).2.2.2.2.2.1
        simp only [List.length_cons] at le
        split at h
        next some =>
          have total := Option.some.inj h
          rw [digits (by omega), if_pos some, total]
        next no =>
          obtain ⟨m, found, rfl⟩ := Option.map_eq_some_iff.mp h
          rw [digits (by omega), if_neg no, plainName_relocate found (by omega) halts]
          rfl
      · have plain (v : List Char) : name (c :: v) = plainName (c :: v) := by
          unfold name
          split
          next eq => exact absurd (List.cons.inj eq).1 quote
          next eq => exact absurd (List.cons.inj eq).1 dollar
          next => rfl
        rw [plain, ← List.cons_append] at h ⊢
        exact plainName_relocate h le halts

theorem Halts.quote (halts : Halts w) : ∀ c ∈ w.head?, c ≠ '"' ∧ c ≠ '#' := by
  intro c mem
  have others := (not_of_halts (halts c mem)).2.2.2.1
  simp only [List.mem_cons, not_or] at others
  exact ⟨others.2.2.1, others.1⟩

theorem tripleQuoted_of_ne {a b c : Char} {cs : List Char}
    (ne : ¬(a = '"' ∧ b = '"' ∧ c = '"')) : tripleQuoted (a :: b :: c :: cs) = none := by
  unfold tripleQuoted
  split
  next eq =>
    cases eq
    exact absurd ⟨rfl, rfl, rfl⟩ ne
  next => rfl

theorem tripleQuoted_relocate (h : tripleQuoted (x ++ u) = some n) (le : n ≤ x.length) :
    tripleQuoted (x ++ w) = some n := by
  unfold tripleQuoted at h
  split at h
  next body eq =>
    obtain ⟨m, found, rfl⟩ := Option.map_eq_some_iff.mp h
    rcases x with _ | ⟨a, _ | ⟨b, _ | ⟨c, x⟩⟩⟩ <;> simp only [List.length_cons, List.length_nil] at le
    · omega
    · omega
    · omega
    · cases eq
      exact congrArg (Option.map (· + 3)) (tripleEnd_relocate found (by omega))
  next => cases h

theorem tripleQuoted_relocate_none (h : tripleQuoted (x ++ u) = none) (ne : x ≠ [])
    (halts : Halts w) (closes : '"' ∈ x → ['"', '"', '"'] <:+: w → ['"', '"', '"'] <:+: u) :
    tripleQuoted (x ++ w) = none := by
  have head := halts.quote
  rcases x with _ | ⟨a, _ | ⟨b, _ | ⟨c, x⟩⟩⟩
  · exact absurd rfl ne
  · unfold tripleQuoted
    split
    next eq =>
      rw [List.singleton_append] at eq
      obtain ⟨-, rest⟩ := List.cons.inj eq
      exact absurd rfl (head '"' (by simp [rest])).1
    next => rfl
  · unfold tripleQuoted
    split
    next eq =>
      rw [List.cons_append, List.singleton_append] at eq
      obtain ⟨-, -, rest⟩ := And.imp_right List.cons.inj (List.cons.inj eq)
      exact absurd rfl (head '"' (by simp [rest])).1
    next => rfl
  · by_cases quotes : a = '"' ∧ b = '"' ∧ c = '"'
    · obtain ⟨rfl, rfl, rfl⟩ := quotes
      have inner : (tripleEnd (x ++ u)).map (· + 3) = none := h
      have open' := tripleEnd_eq_none_iff.mp (Option.map_eq_none_iff.mp inner)
      have still : ¬['"', '"', '"'] <:+: x ++ w := fun within =>
        open' (infix_relocate (fun c mem => by simp [(head c mem).1])
          (closes List.mem_cons_self) within)
      exact congrArg (Option.map (· + 3)) (tripleEnd_eq_none_iff.mpr still)
    · exact tripleQuoted_of_ne quotes

theorem quoted_relocate (h : quoted (x ++ u) = some n) (le : n ≤ x.length) :
    quoted (x ++ w) = some n := by
  unfold quoted at h
  split at h
  next body eq =>
    obtain ⟨m, found, rfl⟩ := Option.map_eq_some_iff.mp h
    cases x with
    | nil =>
      simp only [List.length_nil] at le
      omega
    | cons c x =>
      cases eq
      simp only [List.length_cons] at le
      exact congrArg (Option.map (· + 1)) (quoteEnd_relocate found (by omega))
  next => cases h

theorem literal_relocate (h : (tripleQuoted (x ++ u)).or (quoted (x ++ u)) = some n)
    (le : n ≤ x.length) (halts : Halts w)
    (closes : '"' ∈ x → ['"', '"', '"'] <:+: w → ['"', '"', '"'] <:+: u) :
    (tripleQuoted (x ++ w)).or (quoted (x ++ w)) = some n := by
  have ne : x ≠ [] := by
    have positive := (literal_bounds h).1
    exact List.ne_nil_of_length_pos (by omega)
  rcases Option.or_eq_some_iff.mp h with triple | ⟨none, single⟩
  · exact Option.or_eq_some_iff.mpr (.inl (tripleQuoted_relocate triple le))
  · exact Option.or_eq_some_iff.mpr
      (.inr ⟨tripleQuoted_relocate_none none ne halts closes, quoted_relocate single le⟩)

theorem string_relocate (h : string (x ++ u) = some n) (le : n ≤ x.length) (halts : Halts w)
    (closes : '"' ∈ x → ['"', '"', '"'] <:+: w → ['"', '"', '"'] <:+: u) :
    string (x ++ w) = some n := by
  obtain ⟨m, body, total⟩ := Option.map_eq_some_iff.mp h
  have positive := (literal_bounds body).1
  have opening : pounds (x ++ u) < x.length := by omega
  have same : pounds (x ++ w) = pounds (x ++ u) :=
    congrArg List.length (takeWhile_relocate_of_lt opening)
  have drop (v : List Char) : (x ++ v).drop (pounds (x ++ u)) = x.drop (pounds (x ++ u)) ++ v :=
    List.drop_append_of_le_length (Nat.le_of_lt opening)
  rw [drop] at body total
  have low : m ≤ (x.drop (pounds (x ++ u))).length := by
    rw [List.length_drop]
    omega
  have further : '"' ∈ x.drop (pounds (x ++ u)) → ['"', '"', '"'] <:+: w →
      ['"', '"', '"'] <:+: u := fun mem => closes (List.mem_of_mem_drop mem)
  rw [List.drop_append_of_le_length low] at total
  have closing : pounds ((x.drop (pounds (x ++ u))).drop m ++ w) =
      pounds ((x.drop (pounds (x ++ u))).drop m ++ u) := by
    refine run_relocate ?_ fun c mem => beq_false_of_ne (halts.quote c mem).2
    change pounds ((x.drop (pounds (x ++ u))).drop m ++ u) ≤ _
    rw [List.length_drop, List.length_drop]
    omega
  rw [string, same, drop, literal_relocate body low halts further, Option.map_some,
    List.drop_append_of_le_length low, closing, total]

/-! ## Matches -/

/-- Behind a pound sign, a string literal has another one or its first quote. -/
theorem string_pound {d : Char} {cs : List Char} (h : string ('#' :: d :: cs) = some n) :
    d = '#' ∨ d = '"' := by
  by_cases pound : d = '#'
  · exact .inl pound
  · by_cases quote : d = '"'
    · exact .inr quote
    · have one : pounds ('#' :: d :: cs) = 1 := by simp [pounds, run, pound]
      have triple : tripleQuoted (d :: cs) = none := by
        unfold tripleQuoted
        split
        next eq => exact absurd (List.cons.inj eq).1 quote
        next => rfl
      have single : quoted (d :: cs) = none := by
        unfold quoted
        split
        next eq => exact absurd (List.cons.inj eq).1 quote
        next => rfl
      simp [string, one, triple, single] at h

theorem directive_eq_none_of_quote {d : Char} (cs : List Char) (h : d = '#' ∨ d = '"') :
    directive ('#' :: d :: cs) = none := by
  have word : (d :: cs).takeWhile Text.isWordChar = [] := by
    rcases h with rfl | rfl <;> exact List.takeWhile_cons_of_neg (by decide)
  rw [directive, word, if_neg (by decide)]

theorem front?_relocate_pound {l : Lexical} (h : Lexical.front? ('#' :: x ++ u) = some (l, n))
    (le : n ≤ ('#' :: x).length) (halts : Halts w)
    (closes : '"' ∈ '#' :: x → ['"', '"', '"'] <:+: w → ['"', '"', '"'] <:+: u)
    (inside : l = .directive → n < ('#' :: x).length)
    (edge : ∀ c ∈ ((x ++ u).drop (n - 1)).head?, Text.isWordChar c = true → isNamePart c = true) :
    Lexical.front? ('#' :: x ++ w) = some (l, n) := by
  rw [List.cons_append, Lexical.front?_pound] at h ⊢
  simp only [← List.cons_append] at h ⊢
  rcases Option.or_eq_some_iff.mp h with is | ⟨no, h⟩
  · obtain ⟨m, found, eq⟩ := Option.map_eq_some_iff.mp is
    cases eq
    rw [directive_relocate found (inside rfl)]
    rfl
  rcases Option.or_eq_some_iff.mp h with is | ⟨no', is⟩
  · obtain ⟨m, found, eq⟩ := Option.map_eq_some_iff.mp is
    cases eq
    cases x with
    | nil =>
      obtain ⟨k, body, total⟩ := Option.map_eq_some_iff.mp found
      have positive := (literal_bounds body).1
      have pound : 1 ≤ pounds ('#' :: u) := by simp [pounds, run]
      simp only [List.nil_append, List.cons_append, List.length_singleton] at le total positive
      omega
    | cons d x =>
      have front := string_pound found
      have none : directive ('#' :: d :: x ++ w) = none :=
        directive_eq_none_of_quote (x ++ w) front
      rw [none, string_relocate found le halts closes]
      rfl
  · obtain ⟨m, found, eq⟩ := Option.map_eq_some_iff.mp is
    cases eq
    obtain ⟨k, name, rfl⟩ := Option.map_eq_some_iff.mp found
    have name : plainName (x ++ u) = some k := name
    have short : k ≤ x.length := Nat.le_of_succ_le_succ le
    have length := run_of_plainName name
    have behind : ∀ c ∈ ((x ++ u).drop k).head?, Text.isWordChar c = false := by
      intro c mem
      refine Bool.eq_false_iff.mpr fun word => ?_
      have part := edge c mem word
      rw [← length, ← dropWhile_eq_drop] at mem
      have stops := List.head?_dropWhile_not isNamePart (x ++ u)
      rw [mem] at stops
      exact Bool.eq_false_iff.mp stops part
    have none : string ('#' :: x ++ w) = none := by
      cases x with
      | nil =>
        have positive := (plainName_bounds name).1
        simp only [List.length_nil] at short
        omega
      | cons d x =>
        cases is : string ('#' :: (d :: x ++ w)) with
        | none => exact is
        | some m =>
          rcases string_pound is with rfl | rfl <;> cases name
    have renamed : poundName ('#' :: x ++ w) = some (k + 1) :=
      congrArg (Option.map (· + 1)) (plainName_relocate name short halts)
    rw [none, renamed, List.cons_append, directive_relocate_none
      (Option.map_eq_none_iff.mp no) name short halts behind]
    rfl

theorem front?_relocate_slash {l : Lexical} (h : Lexical.front? ('/' :: x ++ u) = some (l, n))
    (le : n ≤ ('/' :: x).length) (halts : Halts w)
    (closes : '/' ∈ '/' :: x → ['*', '/'] <:+: w → ['*', '/'] <:+: u)
    (inside : l = .comment → n < ('/' :: x).length) :
    Lexical.front? ('/' :: x ++ w) = some (l, n) := by
  rw [List.cons_append, Lexical.front?_slash] at h ⊢
  simp only [← List.cons_append] at h ⊢
  rcases Option.or_eq_some_iff.mp h with is | ⟨no, is⟩
  · obtain ⟨m, found, eq⟩ := Option.map_eq_some_iff.mp is
    cases eq
    rw [comment_relocate found (inside rfl)]
    rfl
  · obtain ⟨rfl, total⟩ := Prod.mk.inj (Option.some.inj is)
    have none := comment_relocate_none (Option.map_eq_none_iff.mp no) (by simp) halts closes
    have same := run_relocate (w := w) (total ▸ le : run isOperatorChar ('/' :: x ++ u) ≤ _)
      fun c mem => (not_of_halts (halts c mem)).1
    rw [none, same, total]
    rfl

/-- What a text begins with whose lexing may hang on what closes far behind. -/
def opensFar (c : Char) : Bool := c == '#' || c == '/' || c == '"'

/-- Any match but a comment or a directive stays where it is moved, and these if they end
before the text does. -/
theorem front?_relocate {l : Lexical} (h : Lexical.front? (x ++ u) = some (l, n))
    (le : n ≤ x.length) (halts : Halts w)
    (tame : ∀ c ∈ x.head?, opensFar c = true → Tame x u w)
    (dot : l = .number → w.head? ≠ some '.')
    (inside : l = .comment ∨ l = .directive ∨ l = .space → n < x.length)
    (edge : ∀ c ∈ ((x ++ u).drop n).head?, Text.isWordChar c = true → isNamePart c = true) :
    Lexical.front? (x ++ w) = some (l, n) := by
  have positive := (Lexical.front?_bounds h).1
  cases x with
  | nil =>
    simp only [List.length_nil] at le
    omega
  | cons c x =>
    by_cases pound : c = '#'
    · subst pound
      refine front?_relocate_pound h le halts (tame '#' rfl rfl).triple
        (fun is => inside (.inr (.inl is))) ?_
      obtain ⟨m, rfl⟩ := Nat.exists_eq_add_of_lt positive
      rw [Nat.zero_add] at edge ⊢
      exact edge
    by_cases slash : c = '/'
    · subst slash
      exact front?_relocate_slash h le halts (tame '/' rfl rfl).comment fun is => inside (.inl is)
    by_cases quote : c = '"'
    · subst quote
      rw [List.cons_append, Lexical.front?_quote, ← List.cons_append] at h ⊢
      obtain ⟨m, found, eq⟩ := Option.map_eq_some_iff.mp h
      cases eq
      rw [string_relocate found le halts (tame '"' rfl rfl).triple]
      rfl
    by_cases digit : c.isDigit = true
    · rw [List.cons_append, Lexical.front?_digit digit, ← List.cons_append] at h ⊢
      obtain ⟨m, found, eq⟩ := Option.map_eq_some_iff.mp h
      cases eq
      rw [number_relocate found le ⟨halts, dot rfl⟩]
      rfl
    by_cases word : opensWord c = true
    · rw [List.cons_append, Lexical.front?_word word, ← List.cons_append] at h ⊢
      obtain ⟨m, found, eq⟩ := Option.map_eq_some_iff.mp h
      cases eq
      rw [name_relocate found le halts]
      rfl
    by_cases operator : isOperatorChar c = true
    · rw [List.cons_append, Lexical.front?_operator operator slash, ← List.cons_append] at h ⊢
      obtain ⟨rfl, total⟩ := Prod.mk.inj (Option.some.inj h)
      have same := run_relocate (w := w) (total ▸ le : run isOperatorChar (c :: x ++ u) ≤ _)
        fun c mem => (not_of_halts (halts c mem)).1
      rw [same, total]
    by_cases space : isSpace c = true
    · rw [List.cons_append, Lexical.front?_space space, ← List.cons_append] at h ⊢
      obtain ⟨rfl, total⟩ := Prod.mk.inj (Option.some.inj h)
      have same := takeWhile_relocate_of_lt (w := w)
        (total ▸ inside (.inr (.inr rfl)) : run isSpace (c :: x ++ u) < (c :: x).length)
      rw [run, same]
      exact congrArg (fun k => some (Lexical.space, k)) total
    by_cases mark : isMark c = true
    · rw [List.cons_append, Lexical.front?_mark mark] at h ⊢
      exact h
    · have sign : c ∉ signs := by
        intro mem
        have all : ∀ d ∈ signs, d = '#' ∨ d = '/' ∨ d = '"' ∨ opensWord d = true ∨
            isOperatorChar d = true ∨ isSpace d = true ∨ isMark d = true :=
          List.all_iff_forall_prop.mp (by decide)
        rcases all c mem with is | is | is | is | is | is | is
        · exact pound is
        · exact slash is
        · exact quote is
        · exact word is
        · exact operator is
        · exact space is
        · exact mark is
      rw [List.cons_append, Lexical.front?_eq_none (Bool.eq_false_iff.mpr word)
        (Bool.eq_false_iff.mpr digit) sign] at h
      cases h

end

end Conformance
