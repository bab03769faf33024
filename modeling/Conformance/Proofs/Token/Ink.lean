import Conformance.Proofs.Token.Relocation
import Conformance.Text.Blank

/-!
# Where tokens begin and end

A token begins with a character that is not blank, and all tokens but directives end with
one (`ink_ends`).  Blank is meant in the wide sense here: strings and back-quoted names may
hold blanks of any kind, but not at their ends.

A pattern is followed along its text.  `InkAt cs n` says that the last of the first `n`
characters is not blank.  It holds for a run of characters that are not blank, and where one
stretch goes on behind another it is enough that it holds for the latter (`InkAt.add`).
-/

namespace Conformance

open Pattern

/-! ## Characters -/

namespace Pattern

variable {c : Char}

theorem ink_of_range (low : 33 ≤ c.toNat) (high : c.toNat < 128) : Text.isBlank c = false := by
  simp only [Text.isBlank, Bool.or_eq_false_iff, Bool.and_eq_false_iff, decide_eq_false_iff_not,
    beq_eq_false_iff_ne]
  omega

theorem ink_of_isDigit (h : c.isDigit = true) : Text.isBlank c = false := by
  have range : 48 ≤ c.toNat ∧ c.toNat ≤ 57 := Char.isDigit_iff_toNat.mp h
  exact ink_of_range (by omega) (by omega)

theorem ink_of_isNamePart (h : isNamePart c = true) : Text.isBlank c = false := by
  refine ink_of_range ?_ (toNat_lt_of_isNamePart h)
  rcases Bool.or_eq_true_iff.mp h with alphanum | underscore
  · rcases Bool.or_eq_true_iff.mp alphanum with alpha | digit
    · have low := le_toNat_of_isAlpha alpha
      omega
    · have low : 48 ≤ c.toNat := (Char.isDigit_iff_toNat.mp digit).1
      omega
  · rw [eq_of_beq underscore]
    decide

theorem ink_of_isDigitPart (h : isDigitPart c = true) : Text.isBlank c = false := by
  rcases Bool.or_eq_true_iff.mp h with digit | underscore
  · exact ink_of_isDigit digit
  · rw [eq_of_beq underscore]
    decide

theorem ink_of_isHexPart (h : isHexPart c = true) : Text.isBlank c = false := by
  rcases Bool.or_eq_true_iff.mp h with others | upper
  · rcases Bool.or_eq_true_iff.mp others with digit | lower
    · exact ink_of_isDigitPart digit
    · obtain ⟨low, high⟩ := Bool.and_eq_true_iff.mp lower
      have low : 'a'.toNat ≤ c.toNat := UInt32.le_iff_toNat_le.mp (of_decide_eq_true low)
      have high : c.toNat ≤ 'f'.toNat := UInt32.le_iff_toNat_le.mp (of_decide_eq_true high)
      exact ink_of_range (Nat.le_trans (by decide) low) (Nat.lt_of_le_of_lt high (by decide))
  · obtain ⟨low, high⟩ := Bool.and_eq_true_iff.mp upper
    have low : 'A'.toNat ≤ c.toNat := UInt32.le_iff_toNat_le.mp (of_decide_eq_true low)
    have high : c.toNat ≤ 'F'.toNat := UInt32.le_iff_toNat_le.mp (of_decide_eq_true high)
    exact ink_of_range (Nat.le_trans (by decide) low) (Nat.lt_of_le_of_lt high (by decide))

/-- Among the characters with a meaning only the blanks between tokens are blank. -/
theorem isSpace_of_sign (sign : c ∈ signs) (blank : Text.isBlank c = true) : isSpace c = true := by
  have all : ∀ c ∈ signs, Text.isBlank c = true → isSpace c = true :=
    List.all_iff_forall_prop.mp (by decide)
  exact all c sign blank

theorem ink_of_operator (h : isOperatorChar c = true) : Text.isBlank c = false := by
  have all : ∀ c ∈ "-+*/%=<>!&|^~?".toList, Text.isBlank c = false :=
    List.all_iff_forall_prop.mp (by decide)
  exact all c (of_decide_eq_true h)

/-! ## Along a text -/

/-- The last of the first characters is not blank, if there is one. -/
def InkAt (cs : List Char) (n : Nat) : Prop := ∀ c ∈ cs[n - 1]?, Text.isBlank c = false

variable {cs : List Char} {n k : Nat}

/-- What goes on behind ink ends in ink if it does so by itself. -/
theorem InkAt.add (before : InkAt cs k) (more : 0 < n → InkAt (cs.drop k) n) :
    InkAt cs (k + n) := by
  rcases Nat.eq_zero_or_pos n with rfl | positive
  · exact before
  · intro c mem
    refine more positive c ?_
    have place : k + n - 1 = k + (n - 1) := by omega
    rwa [List.getElem?_drop, ← place]

theorem InkAt.behind (c : Char) (positive : 0 < n) (h : InkAt cs n) : InkAt (c :: cs) (n + 1) := by
  intro d mem
  refine h d ?_
  rw [Nat.add_sub_cancel] at mem
  obtain ⟨m, rfl⟩ : ∃ m, n = m + 1 := ⟨n - 1, by omega⟩
  exact mem

theorem inkAt_one {c : Char} (ink : Text.isBlank c = false) : InkAt (c :: cs) 1 := by
  intro d mem
  cases mem
  exact ink

theorem inkAt_run {p : Char → Bool} (ink : ∀ c, p c = true → Text.isBlank c = false)
    (some : 0 < run p cs) : InkAt cs (run p cs) := by
  intro c mem
  have within : run p cs - 1 < (cs.takeWhile p).length := Nat.sub_lt some Nat.one_pos
  have same : (cs.takeWhile p)[run p cs - 1]? = cs[run p cs - 1]? := by
    rw [List.prefix_iff_eq_take.mp (List.takeWhile_prefix p), List.getElem?_take_of_lt within]
  rw [Option.mem_def, ← same] at mem
  exact ink c (List.mem_takeWhile_imp (List.mem_of_getElem? mem))

/-- A character that is not blank, and a run of such. -/
theorem inkAt_cons_run {p : Char → Bool} {c : Char} (first : Text.isBlank c = false)
    (ink : ∀ c, p c = true → Text.isBlank c = false) : InkAt (c :: cs) (1 + run p cs) :=
  (inkAt_one first).add (inkAt_run ink)

/-! ## Numbers and names -/

theorem inkAt_fraction (some : 0 < fraction cs) : InkAt cs (fraction cs) := by
  unfold fraction at some ⊢
  split
  next c cs =>
    split
    next digit =>
      have tail : InkAt (c :: cs) (1 + run isDigitPart cs) :=
        inkAt_cons_run (ink_of_isDigit digit) fun _ => ink_of_isDigitPart
      have whole := tail.behind '.' (by omega)
      rwa [Nat.add_comm, ← Nat.add_assoc] at whole
    next digit => simp [digit] at some
  next => simp at some

theorem inkAt_power {c : Char} (some : 0 < power cs) :
    InkAt (c :: cs) (power cs) := by
  unfold power at some ⊢
  dsimp only at some ⊢
  split
  next digits =>
    have tail := inkAt_run (fun _ => ink_of_isDigit) digits
    rw [Nat.add_assoc, Nat.add_comm]
    refine InkAt.behind c (by omega) ?_
    intro d mem
    refine tail d ?_
    rw [Option.mem_def, List.getElem?_drop]
    have place : sign cs + (run Char.isDigit (cs.drop (sign cs)) - 1) =
        sign cs + run Char.isDigit (cs.drop (sign cs)) - 1 := by omega
    rwa [place]
  next none => simp [none] at some

theorem inkAt_exponent (some : 0 < exponent cs) : InkAt cs (exponent cs) := by
  unfold exponent at some ⊢
  split
  next cs => exact inkAt_power some
  next cs => exact inkAt_power some
  next => simp at some

theorem inkAt_number (h : number cs = some n) : InkAt cs n := by
  rcases Option.or_eq_some_iff.mp h with isBased | ⟨-, isDecimal⟩
  · unfold based at isBased
    split at isBased
    next c cs =>
      split at isBased
      next digits =>
        cases isBased
        have some := of_decide_eq_true (Bool.and_eq_true_iff.mp digits).2
        have tail := ((inkAt_run (fun _ => ink_of_isHexPart) some).behind c some).behind '0'
          (by omega)
        rwa [Nat.add_assoc, Nat.add_comm] at tail
      next => cases isBased
    next => cases isBased
  · cases cs with
    | nil => cases isDecimal
    | cons c cs =>
      unfold decimal at isDecimal
      dsimp only at isDecimal
      split at isDecimal
      next digit =>
        cases isDecimal
        exact ((inkAt_cons_run (ink_of_isDigit digit) fun _ => ink_of_isDigitPart).add
          inkAt_fraction).add inkAt_exponent
      next => cases isDecimal

theorem inkAt_plainName (h : plainName cs = some n) : InkAt cs n := by
  unfold plainName at h
  split at h
  next c cs =>
    split at h
    next start =>
      cases h
      exact inkAt_cons_run (ink_of_isNamePart (isNamePart_of_isNameStart start))
        fun _ => ink_of_isNamePart
    next => cases h
  next => cases h

theorem inkAt_name (h : name cs = some n) : InkAt cs n := by
  unfold name at h
  split at h
  next cs =>
    dsimp only at h
    split at h
    next closed =>
      cases h
      -- A back quote follows what is between the quotes.
      have quote := eq_of_beq (Bool.and_eq_true_iff.mp closed).2
      refine InkAt.behind '\x60' (by omega) fun c mem => ?_
      rw [Nat.add_sub_cancel, Option.mem_def, ← List.head?_drop, quote] at mem
      cases mem
      decide
    next => cases h
  next cs =>
    split at h
    next digits =>
      cases h
      exact inkAt_cons_run (by decide) fun _ => ink_of_isDigit
    next =>
      obtain ⟨m, plain, rfl⟩ := Option.map_eq_some_iff.mp h
      exact (inkAt_plainName plain).behind '$' (plainName_bounds plain).1
  next => exact inkAt_plainName h

theorem inkAt_poundName (h : poundName cs = some n) : InkAt cs n := by
  unfold poundName at h
  split at h
  next cs =>
    obtain ⟨m, plain, rfl⟩ := Option.map_eq_some_iff.mp h
    exact (inkAt_plainName plain).behind '#' (plainName_bounds plain).1
  next => cases h

/-! ## String literals -/

theorem inkAt_tripleEnd (h : tripleEnd cs = some n) : InkAt cs n := by
  fun_induction tripleEnd cs generalizing n with
  | case1 =>
    cases h
    exact ((inkAt_one (by decide)).behind '"' (by decide)).behind '"' (by decide)
  | case2 c cs _ ih =>
    obtain ⟨m, found, rfl⟩ := Option.map_eq_some_iff.mp h
    have some := three_le_tripleEnd found
    exact (ih found).behind c (by omega)
  | case3 => cases h

theorem inkAt_quoteEnd (h : quoteEnd cs = some n) : InkAt cs n := by
  fun_induction quoteEnd cs generalizing n with
  | case1 =>
    cases h
    exact inkAt_one (by decide)
  | case2 => cases h
  | case3 c cs line ih =>
    obtain ⟨m, found, rfl⟩ := Option.map_eq_some_iff.mp h
    have some := one_le_quoteEnd found
    exact ((ih found).behind c some).behind '\\' (by omega)
  | case4 => cases h
  | case5 => cases h
  | case6 c cs _ _ line _ ih =>
    obtain ⟨m, found, rfl⟩ := Option.map_eq_some_iff.mp h
    exact (ih found).behind c (one_le_quoteEnd found)
  | case7 => cases h

theorem inkAt_literal (h : (tripleQuoted cs).or (quoted cs) = some n) : InkAt cs n := by
  rcases Option.or_eq_some_iff.mp h with triple | ⟨-, single⟩
  · unfold tripleQuoted at triple
    split at triple
    next cs =>
      obtain ⟨m, found, rfl⟩ := Option.map_eq_some_iff.mp triple
      have some := three_le_tripleEnd found
      exact (((inkAt_tripleEnd found).behind '"' (by omega)).behind '"' (by omega)).behind '"'
        (by omega)
    next => cases triple
  · unfold quoted at single
    split at single
    next cs =>
      obtain ⟨m, found, rfl⟩ := Option.map_eq_some_iff.mp single
      exact (inkAt_quoteEnd found).behind '"' (one_le_quoteEnd found)
    next => cases single

theorem inkAt_string (h : string cs = some n) : InkAt cs n := by
  obtain ⟨m, found, rfl⟩ := Option.map_eq_some_iff.mp h
  have pound : ∀ c, (c == '#') = true → Text.isBlank c = false := by
    intro c is
    rw [eq_of_beq is]
    decide
  have literal : InkAt cs (pounds cs + m) := by
    intro c mem
    refine inkAt_literal found c ?_
    have some := (literal_bounds found).1
    have place : pounds cs + m - 1 = pounds cs + (m - 1) := by omega
    rwa [Option.mem_def, List.getElem?_drop, ← place]
  refine literal.add fun some => ?_
  rw [List.drop_drop] at some ⊢
  exact inkAt_run pound some

end Pattern

/-! ## The ends of a text -/

/-- Neither end of a text is blank. -/
structure Trimmed (cs : List Char) : Prop where
  /-- It does not begin with a blank. -/
  head : ∀ c ∈ cs.head?, Text.isBlank c = false
  /-- It does not end with a blank. -/
  last : ∀ c ∈ cs.getLast?, Text.isBlank c = false

/-- There is nothing to trim. -/
theorem Trimmed.trim_eq {s : String} (h : Trimmed s.toList) : Text.trim s = s := by
  have keep {cs : List Char} (head : ∀ c ∈ cs.head?, Text.isBlank c = false) :
      cs.dropWhile Text.isBlank = cs := by
    cases cs with
    | nil => rfl
    | cons c cs => exact List.dropWhile_cons_of_neg (by simp [head c rfl])
  have last : ∀ c ∈ s.toList.reverse.head?, Text.isBlank c = false := by
    rw [List.head?_reverse]
    exact h.last
  rw [Text.trim, keep h.head, keep last, List.reverse_reverse, String.ofList_toList]

/-! ## Tokens -/

open Lexical

variable {c : Char} {cs : List Char} {l : Lexical} {n : Nat}

/-- Only blanks begin with a blank. -/
theorem eq_space_of_blank (found : front? (c :: cs) = some (l, n))
    (blank : Text.isBlank c = true) : l = .space := by
  have no {p : Char → Bool} (ink : p c = true → Text.isBlank c = false) : p c = false := by
    cases is : p c with
    | false => rfl
    | true => rw [ink is] at blank; cases blank
  have word : opensWord c = false := no fun opens => by
    rcases Bool.or_eq_true_iff.mp opens with special | start
    · rcases Bool.or_eq_true_iff.mp special with is | is <;> rw [eq_of_beq is] <;> decide
    · exact ink_of_isNamePart (isNamePart_of_isNameStart start)
  by_cases sign : c ∈ signs
  · rw [front?_space (isSpace_of_sign sign blank)] at found
    exact (Prod.mk.inj (Option.some.inj found)).1.symm
  · rw [front?_eq_none word (no ink_of_isDigit) sign] at found
    cases found

/-- All that is matched ends in ink, except for layout and directives. -/
theorem inkAt_front? (found : front? cs = some (l, n)) (directive : l ≠ .directive)
    (comment : l ≠ .comment) (space : l ≠ .space) : InkAt cs n := by
  obtain ⟨p, mem, is⟩ := exists_pattern found
  simp only [patterns, List.mem_cons, Prod.mk.injEq, List.not_mem_nil, or_false] at mem
  rcases mem with ⟨rfl, -⟩ | ⟨rfl, -⟩ | ⟨-, rfl⟩ | ⟨-, rfl⟩ | ⟨-, rfl⟩ | ⟨-, rfl⟩ | ⟨-, rfl⟩ |
    ⟨rfl, -⟩ | ⟨-, rfl⟩
  · exact absurd rfl directive
  · exact absurd rfl comment
  · exact inkAt_number is
  · exact inkAt_name is
  · exact inkAt_string is
  · exact inkAt_poundName is
  · unfold Pattern.operator at is
    split at is
    next some => cases is; exact inkAt_run (fun _ => ink_of_operator) some
    next => cases is
  · exact absurd rfl space
  · cases cs with
    | nil => cases is
    | cons c cs =>
      have marks : ∀ c ∈ signs, isMark c = true → Text.isBlank c = false :=
        List.all_iff_forall_prop.mp (by decide)
      unfold Pattern.mark at is
      dsimp only at is
      split at is
      next mark => cases is; exact inkAt_one (marks c (mem_signs_of_mark mark) mark)
      next => cases is

end Conformance
