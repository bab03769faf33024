import Conformance.Token.Lexer
import Mathlib.Data.Bool.AllAny
import Mathlib.Data.List.TakeWhile

/-!
# What stands in front of a text

The first character of a text settles which of the patterns can match there.  Only two
characters leave a choice: a pound sign may open a directive, a string literal or a pound
name, and a slash a comment or an operator.

A match takes at least one character and none that is not there (`front?_bounds`).
-/

namespace Conformance

namespace Pattern

/-! ## First characters -/

/-- The first character of a name or reserved word. -/
def opensWord (c : Char) : Bool := c == '\x60' || c == '$' || isNameStart c

/-- A punctuation mark. -/
def isMark (c : Char) : Bool := (Kind.ofMark? c).isSome

/-- The characters of which each has a meaning of its own. -/
def signs : List Char := ['#', '/', '"', '\x60', '$', '_'] ++ "-+*%=<>!&|^~?".toList ++
  [' ', '\t', '\x0c', '\r', '\n'] ++ "\\@:,.\x7b\x7d()[];".toList

theorem mem_signs_of_operator {c : Char} (h : isOperatorChar c = true) : c ∈ signs := by
  have all : ∀ c ∈ "-+*/%=<>!&|^~?".toList, c ∈ signs := List.all_iff_forall_prop.mp (by decide)
  exact all c (of_decide_eq_true h)

theorem mem_signs_of_space {c : Char} (h : isSpace c = true) : c ∈ signs := by
  have all : ∀ c ∈ [' ', '\t', '\x0c', '\r', '\n'], c ∈ signs :=
    List.all_iff_forall_prop.mp (by decide)
  exact all c (of_decide_eq_true h)

theorem mem_signs_of_mark {c : Char} (h : isMark c = true) : c ∈ signs := by
  unfold isMark Kind.ofMark? at h
  split at h <;> first | decide | cases h

variable {c : Char} {cs : List Char}

/-- Letters are in ASCII. -/
theorem toNat_lt_of_isAlpha (h : c.isAlpha = true) : c.toNat < 128 := by
  rcases Bool.or_eq_true_iff.mp h with isUpper | isLower
  · have upper : c.val ≥ 'A'.val ∧ c.val ≤ 'Z'.val := of_decide_eq_true isUpper
    exact Nat.lt_of_le_of_lt (UInt32.le_iff_toNat_le.mp upper.2) (by decide)
  · have lower : c.val ≤ 'z'.val := of_decide_eq_true (Bool.and_eq_true_iff.mp isLower).2
    exact Nat.lt_of_le_of_lt (UInt32.le_iff_toNat_le.mp lower) (by decide)

/-- The characters of plain names are in ASCII. -/
theorem toNat_lt_of_isNamePart (h : isNamePart c = true) : c.toNat < 128 := by
  rcases Bool.or_eq_true_iff.mp h with alphanum | underscore
  · rcases Bool.or_eq_true_iff.mp alphanum with alpha | digit
    · exact toNat_lt_of_isAlpha alpha
    · have high : c.toNat ≤ 57 := (Char.isDigit_iff_toNat.mp digit).2
      omega
  · rw [eq_of_beq underscore]
    decide

theorem isNamePart_of_isNameStart (h : isNameStart c = true) : isNamePart c = true := by
  rcases Bool.or_eq_true_iff.mp h with alpha | underscore
  · exact Bool.or_eq_true_iff.mpr (.inl (Bool.or_eq_true_iff.mpr (.inl alpha)))
  · exact Bool.or_eq_true_iff.mpr (.inr underscore)

theorem isNamePart_of_isDigit (h : c.isDigit = true) : isNamePart c = true :=
  Bool.or_eq_true_iff.mpr (.inl (Bool.or_eq_true_iff.mpr (.inr h)))

theorem isWordChar_of_isNamePart (h : isNamePart c = true) : Text.isWordChar c = true := by
  have low := toNat_lt_of_isNamePart h
  rw [Text.isWordChar, if_pos low]
  exact h

/-- Letters come behind digits. -/
theorem le_toNat_of_isAlpha (h : c.isAlpha = true) : 65 ≤ c.toNat := by
  rcases Bool.or_eq_true_iff.mp h with isUpper | isLower
  · have upper : c.val ≥ 'A'.val ∧ c.val ≤ 'Z'.val := of_decide_eq_true isUpper
    exact UInt32.le_iff_toNat_le.mp upper.1
  · have lower : c.val ≥ 'a'.val := of_decide_eq_true (Bool.and_eq_true_iff.mp isLower).1
    exact Nat.le_trans (by decide) (UInt32.le_iff_toNat_le.mp lower)

theorem not_isDigit_of_opensWord (h : opensWord c = true) : c.isDigit = false := by
  rcases Bool.or_eq_true_iff.mp h with special | start
  · rcases Bool.or_eq_true_iff.mp special with is | is <;> cases eq_of_beq is <;> rfl
  · rcases Bool.or_eq_true_iff.mp start with alpha | is
    · have high := le_toNat_of_isAlpha alpha
      refine Bool.eq_false_iff.mpr fun digit => ?_
      have low : c.toNat ≤ 57 := (Char.isDigit_iff_toNat.mp digit).2
      omega
    · cases eq_of_beq is
      rfl

/-! ## Patterns that do not match -/

theorem directive_eq_none (h : c ≠ '#') : directive (c :: cs) = none := by
  unfold directive
  split
  next eq => exact absurd (List.cons.inj eq).1 h
  next => rfl

theorem comment_eq_none (h : c ≠ '/') : comment (c :: cs) = none := by
  unfold comment
  split
  next eq => exact absurd (List.cons.inj eq).1 h
  next eq => exact absurd (List.cons.inj eq).1 h
  next => rfl

theorem number_eq_none (h : c.isDigit = false) : number (c :: cs) = none := by
  have ne : c ≠ '0' := by
    rintro rfl
    cases h
  have decimal : decimal (c :: cs) = none := by simp [decimal, h]
  have based : based (c :: cs) = none := by
    unfold Pattern.based
    split
    next eq => exact absurd (List.cons.inj eq).1 ne
    next => rfl
  rw [number, based, decimal]
  rfl

theorem name_eq_none (h : opensWord c = false) : name (c :: cs) = none := by
  simp only [opensWord, Bool.or_eq_false_iff, beq_eq_false_iff_ne] at h
  obtain ⟨⟨quote, dollar⟩, start⟩ := h
  unfold name
  split
  next eq => exact absurd (List.cons.inj eq).1 quote
  next eq => exact absurd (List.cons.inj eq).1 dollar
  next => simp [plainName, start]

theorem string_eq_none (pound : c ≠ '#') (quote : c ≠ '"') : string (c :: cs) = none := by
  have none : pounds (c :: cs) = 0 := by simp [pounds, run, pound]
  have triple : tripleQuoted (c :: cs) = .none := by
    unfold tripleQuoted
    split
    next eq => exact absurd (List.cons.inj eq).1 quote
    next => rfl
  have single : quoted (c :: cs) = .none := by
    unfold quoted
    split
    next eq => exact absurd (List.cons.inj eq).1 quote
    next => rfl
  simp [string, none, triple, single]

theorem poundName_eq_none (h : c ≠ '#') : poundName (c :: cs) = none := by
  unfold poundName
  split
  next eq => exact absurd (List.cons.inj eq).1 h
  next => rfl

theorem operator_eq_none (h : isOperatorChar c = false) : operator (c :: cs) = none := by
  simp [operator, run, h]

theorem operator_eq_some (h : isOperatorChar c = true) :
    operator (c :: cs) = some (run isOperatorChar (c :: cs)) := by
  simp [operator, run, h]

theorem space_eq_none (h : isSpace c = false) : space (c :: cs) = none := by
  simp [space, run, h]

theorem space_eq_some (h : isSpace c = true) :
    space (c :: cs) = some (run isSpace (c :: cs)) := by
  simp [space, run, h]

/-! ## How far patterns reach -/

theorem run_le (p : Char → Bool) (cs : List Char) : run p cs ≤ cs.length :=
  (List.takeWhile_prefix p).length_le

theorem commentEnd_le {n : Nat} (h : commentEnd cs = some n) : n ≤ cs.length := by
  induction cs generalizing n with
  | nil => cases h
  | cons c cs ih =>
    unfold commentEnd at h
    split at h
    next eq =>
      cases h
      rw [eq]
      simp
    next eq =>
      cases eq
      obtain ⟨m, found, rfl⟩ := Option.map_eq_some_iff.mp h
      exact Nat.succ_le_succ (ih found)
    next => cases h

theorem tripleEnd_le {n : Nat} (h : tripleEnd cs = some n) : n ≤ cs.length := by
  induction cs generalizing n with
  | nil => cases h
  | cons c cs ih =>
    unfold tripleEnd at h
    split at h
    next eq =>
      cases h
      rw [eq]
      simp
    next eq =>
      cases eq
      obtain ⟨m, found, rfl⟩ := Option.map_eq_some_iff.mp h
      exact Nat.succ_le_succ (ih found)
    next => cases h

theorem quoteEnd_le {n : Nat} (h : quoteEnd cs = some n) : n ≤ cs.length := by
  fun_induction quoteEnd cs generalizing n with
  | case1 => cases h; simp
  | case2 => cases h
  | case3 c cs line ih =>
    obtain ⟨m, found, rfl⟩ := Option.map_eq_some_iff.mp h
    exact Nat.succ_le_succ (Nat.succ_le_succ (ih found))
  | case4 => cases h
  | case5 => cases h
  | case6 _ c cs _ _ line ih =>
    obtain ⟨m, found, rfl⟩ := Option.map_eq_some_iff.mp h
    exact Nat.succ_le_succ (ih found)
  | case7 => cases h

theorem directive_bounds {n : Nat} (h : directive cs = some n) : 0 < n ∧ n ≤ cs.length := by
  unfold directive at h
  split at h
  next cs =>
    split at h
    next =>
      cases h
      have reach := run_le inLine cs
      simp only [List.length_cons]
      omega
    next => cases h
  next => cases h

theorem comment_bounds {n : Nat} (h : comment cs = some n) : 0 < n ∧ n ≤ cs.length := by
  unfold comment at h
  split at h
  next cs =>
    cases h
    have reach := run_le inLine cs
    simp only [List.length_cons]
    omega
  next cs =>
    obtain ⟨m, found, rfl⟩ := Option.map_eq_some_iff.mp h
    have reach := commentEnd_le found
    simp only [List.length_cons]
    omega
  next => cases h

theorem fraction_le (cs : List Char) : fraction cs ≤ cs.length := by
  unfold fraction
  split
  next c cs =>
    have reach := run_le isDigitPart cs
    split <;> simp only [List.length_cons] <;> omega
  next => exact Nat.zero_le _

theorem sign_le (cs : List Char) : sign cs ≤ cs.length := by
  unfold sign
  split <;> simp

theorem exponent_le (cs : List Char) : exponent cs ≤ cs.length := by
  have behind (cs : List Char) :
      (if 0 < run Char.isDigit (cs.drop (sign cs)) then
        1 + sign cs + run Char.isDigit (cs.drop (sign cs)) else 0) ≤ cs.length + 1 := by
    have signed := sign_le cs
    have reach := run_le Char.isDigit (cs.drop (sign cs))
    rw [List.length_drop] at reach
    split <;> omega
  unfold exponent
  split
  next cs => exact behind cs
  next cs => exact behind cs
  next => exact Nat.zero_le _

theorem based_bounds {n : Nat} (h : based cs = some n) : 0 < n ∧ n ≤ cs.length := by
  unfold based at h
  split at h
  next c cs =>
    split at h
    next =>
      cases h
      have reach := run_le isHexPart cs
      simp only [List.length_cons]
      omega
    next => cases h
  next => cases h

theorem decimal_bounds {n : Nat} (h : decimal cs = some n) : 0 < n ∧ n ≤ cs.length := by
  unfold decimal at h
  split at h
  next c cs =>
    split at h
    next =>
      cases h
      have whole := run_le isDigitPart cs
      have part := fraction_le ((c :: cs).drop (1 + run isDigitPart cs))
      have power := exponent_le ((c :: cs).drop (1 + run isDigitPart cs +
        fraction ((c :: cs).drop (1 + run isDigitPart cs))))
      rw [List.length_drop, List.length_cons] at part power
      rw [List.length_cons]
      omega
    next => cases h
  next => cases h

theorem number_bounds {n : Nat} (h : number cs = some n) : 0 < n ∧ n ≤ cs.length := by
  rcases Option.or_eq_some_iff.mp h with based | ⟨-, decimal⟩
  · exact based_bounds based
  · exact decimal_bounds decimal

theorem plainName_bounds {n : Nat} (h : plainName cs = some n) : 0 < n ∧ n ≤ cs.length := by
  unfold plainName at h
  split at h
  next c cs =>
    split at h
    next =>
      cases h
      have reach := run_le isNamePart cs
      simp only [List.length_cons]
      omega
    next => cases h
  next => cases h

theorem name_bounds {n : Nat} (h : name cs = some n) : 0 < n ∧ n ≤ cs.length := by
  unfold name at h
  split at h
  next cs =>
    dsimp only at h
    split at h
    next closed =>
      cases h
      have last := eq_of_beq (Bool.and_eq_true_iff.mp closed).2
      have more : 0 < (cs.drop (run (fun c => c != '\x60' && c != '\n') cs)).length := by
        rw [List.length_pos_iff]
        intro empty
        rw [empty] at last
        cases last
      rw [List.length_drop] at more
      rw [List.length_cons]
      omega
    next => cases h
  next cs =>
    split at h
    next =>
      cases h
      have reach := run_le Char.isDigit cs
      simp only [List.length_cons]
      omega
    next =>
      obtain ⟨m, found, rfl⟩ := Option.map_eq_some_iff.mp h
      have reach := (plainName_bounds found).2
      simp only [List.length_cons]
      omega
  next => exact plainName_bounds h

theorem tripleQuoted_bounds {n : Nat} (h : tripleQuoted cs = some n) :
    0 < n ∧ n ≤ cs.length := by
  unfold tripleQuoted at h
  split at h
  next body =>
    obtain ⟨m, ends, rfl⟩ := Option.map_eq_some_iff.mp h
    have reach := tripleEnd_le ends
    simp only [List.length_cons]
    omega
  next => cases h

theorem quoted_bounds {n : Nat} (h : quoted cs = some n) : 0 < n ∧ n ≤ cs.length := by
  unfold quoted at h
  split at h
  next body =>
    obtain ⟨m, ends, rfl⟩ := Option.map_eq_some_iff.mp h
    have reach := quoteEnd_le ends
    simp only [List.length_cons]
    omega
  next => cases h

theorem literal_bounds {n : Nat} (h : (tripleQuoted cs).or (quoted cs) = some n) :
    0 < n ∧ n ≤ cs.length := by
  rcases Option.or_eq_some_iff.mp h with triple | ⟨-, single⟩
  · exact tripleQuoted_bounds triple
  · exact quoted_bounds single

theorem string_bounds {n : Nat} (h : string cs = some n) : 0 < n ∧ n ≤ cs.length := by
  obtain ⟨m, found, rfl⟩ := Option.map_eq_some_iff.mp h
  have opening := run_le (· == '#') cs
  have bounds := literal_bounds found
  have closing := run_le (· == '#') ((cs.drop (pounds cs)).drop m)
  rw [List.length_drop] at bounds
  rw [List.length_drop, List.length_drop] at closing
  change pounds cs ≤ cs.length at opening
  change pounds ((cs.drop (pounds cs)).drop m) ≤ _ at closing
  omega

theorem poundName_bounds {n : Nat} (h : poundName cs = some n) : 0 < n ∧ n ≤ cs.length := by
  unfold poundName at h
  split at h
  next cs =>
    obtain ⟨m, found, rfl⟩ := Option.map_eq_some_iff.mp h
    have reach := (plainName_bounds found).2
    simp only [List.length_cons]
    omega
  next => cases h

theorem operator_bounds {n : Nat} (h : operator cs = some n) : 0 < n ∧ n ≤ cs.length := by
  unfold operator at h
  split at h
  next some => cases h; exact ⟨some, run_le isOperatorChar cs⟩
  next => cases h

theorem space_bounds {n : Nat} (h : space cs = some n) : 0 < n ∧ n ≤ cs.length := by
  unfold space at h
  split at h
  next some => cases h; exact ⟨some, run_le isSpace cs⟩
  next => cases h

theorem mark_bounds {n : Nat} (h : mark cs = some n) : 0 < n ∧ n ≤ cs.length := by
  unfold mark at h
  split at h
  next =>
    split at h
    next => cases h; simp
    next => cases h
  next => cases h

end Pattern

namespace Lexical

open Pattern

/-- The patterns that may match at a first character, in their order. -/
theorem front?_eq (cs : List Char) :
    front? cs = ((Pattern.directive cs).map (Lexical.directive, ·)).or
      (((Pattern.comment cs).map (Lexical.comment, ·)).or
      (((Pattern.number cs).map (Lexical.number, ·)).or
      (((Pattern.name cs).map (Lexical.word, ·)).or
      (((Pattern.string cs).map (Lexical.string, ·)).or
      (((Pattern.poundName cs).map (Lexical.poundName, ·)).or
      (((Pattern.operator cs).map (Lexical.operator, ·)).or
      (((Pattern.space cs).map (Lexical.space, ·)).or
      ((Pattern.mark cs).map (Lexical.mark, ·))))))))) := by
  simp only [front?, patterns, List.findSome?_cons]
  cases Pattern.directive cs <;> cases Pattern.comment cs <;> cases Pattern.number cs <;>
    cases Pattern.name cs <;> cases Pattern.string cs <;> cases Pattern.poundName cs <;>
    cases Pattern.operator cs <;> cases Pattern.space cs <;> cases Pattern.mark cs <;> rfl


/-! ## By the first character -/

variable {c : Char} {cs : List Char}

theorem front?_pound (cs : List Char) :
    front? ('#' :: cs) = ((Pattern.directive ('#' :: cs)).map (Lexical.directive, ·)).or
      (((Pattern.string ('#' :: cs)).map (Lexical.string, ·)).or
      ((Pattern.poundName ('#' :: cs)).map (Lexical.poundName, ·))) := by
  rw [front?_eq, comment_eq_none (by decide), number_eq_none (by decide),
    name_eq_none (by decide), operator_eq_none (by decide), space_eq_none (by decide)]
  have mark : Pattern.mark ('#' :: cs) = none := rfl
  rw [mark]
  simp

theorem front?_slash (cs : List Char) :
    front? ('/' :: cs) = ((Pattern.comment ('/' :: cs)).map (Lexical.comment, ·)).or
      (some (Lexical.operator, run isOperatorChar ('/' :: cs))) := by
  rw [front?_eq, directive_eq_none (by decide), number_eq_none (by decide),
    name_eq_none (by decide), string_eq_none (by decide) (by decide),
    poundName_eq_none (by decide), operator_eq_some (by decide)]
  simp

theorem front?_digit (h : c.isDigit = true) :
    front? (c :: cs) = (Pattern.number (c :: cs)).map (Lexical.number, ·) := by
  have pound : c ≠ '#' := by
    rintro rfl
    cases h
  have slash : c ≠ '/' := by
    rintro rfl
    cases h
  obtain ⟨n, some⟩ : ∃ n, Pattern.number (c :: cs) = some n := by
    cases based : Pattern.based (c :: cs) with
    | none => simp [Pattern.number, based, Pattern.decimal, h]
    | some n => simp [Pattern.number, based]
  rw [front?_eq, directive_eq_none pound, comment_eq_none slash, some]
  rfl

theorem front?_word (h : opensWord c = true) :
    front? (c :: cs) = (Pattern.name (c :: cs)).map (Lexical.word, ·) := by
  have only : ∀ d ∈ signs, opensWord d = true → d = '\x60' ∨ d = '$' ∨ d = '_' :=
    List.all_iff_forall_prop.mp (by decide)
  have pound : c ≠ '#' := by
    rintro rfl
    cases h
  have slash : c ≠ '/' := by
    rintro rfl
    cases h
  have quote : c ≠ '"' := by
    rintro rfl
    cases h
  have operator : isOperatorChar c = false := by
    have none : ∀ d ∈ "-+*/%=<>!&|^~?".toList, opensWord d = false :=
      List.all_iff_forall_prop.mp (by decide)
    exact decide_eq_false fun mem => by simp [none c mem] at h
  have space : isSpace c = false := by
    have none : ∀ d ∈ [' ', '\t', '\x0c', '\r', '\n'], opensWord d = false :=
      List.all_iff_forall_prop.mp (by decide)
    exact decide_eq_false fun mem => by simp [none c mem] at h
  have mark : Pattern.mark (c :: cs) = none := by
    cases is : Kind.ofMark? c with
    | none => simp [Pattern.mark, is]
    | some k =>
      unfold Kind.ofMark? at is
      split at is <;> first | cases h | cases is
  have digit : c.isDigit = false := not_isDigit_of_opensWord h
  rw [front?_eq, directive_eq_none pound, comment_eq_none slash, number_eq_none digit,
    string_eq_none pound quote, poundName_eq_none pound, operator_eq_none operator,
    space_eq_none space, mark]
  simp

theorem front?_quote (cs : List Char) :
    front? ('"' :: cs) = (Pattern.string ('"' :: cs)).map (Lexical.string, ·) := by
  have mark : Pattern.mark ('"' :: cs) = none := rfl
  rw [front?_eq, directive_eq_none (by decide), comment_eq_none (by decide),
    number_eq_none (by decide), name_eq_none (by decide), poundName_eq_none (by decide),
    operator_eq_none (by decide), space_eq_none (by decide), mark]
  simp

theorem front?_operator (h : isOperatorChar c = true) (slash : c ≠ '/') :
    front? (c :: cs) = some (.operator, run isOperatorChar (c :: cs)) := by
  have others : ∀ d ∈ "-+*/%=<>!&|^~?".toList,
      d ≠ '#' ∧ d.isDigit = false ∧ opensWord d = false ∧ d ≠ '"' :=
    List.all_iff_forall_prop.mp (by decide)
  obtain ⟨pound, digit, word, quote⟩ := others c (of_decide_eq_true h)
  rw [front?_eq, directive_eq_none pound, comment_eq_none slash, number_eq_none digit,
    name_eq_none word, string_eq_none pound quote, poundName_eq_none pound, operator_eq_some h]
  simp

theorem front?_space (h : isSpace c = true) :
    front? (c :: cs) = some (.space, run isSpace (c :: cs)) := by
  have others : ∀ d ∈ [' ', '\t', '\x0c', '\r', '\n'], d ≠ '#' ∧ d ≠ '/' ∧ d.isDigit = false ∧
      opensWord d = false ∧ d ≠ '"' ∧ isOperatorChar d = false :=
    List.all_iff_forall_prop.mp (by decide)
  obtain ⟨pound, slash, digit, word, quote, operator⟩ := others c (of_decide_eq_true h)
  rw [front?_eq, directive_eq_none pound, comment_eq_none slash, number_eq_none digit,
    name_eq_none word, string_eq_none pound quote, poundName_eq_none pound,
    operator_eq_none operator, space_eq_some h]
  simp

theorem front?_mark (h : isMark c = true) : front? (c :: cs) = some (.mark, 1) := by
  have others : ∀ d ∈ signs, isMark d = true → d ≠ '#' ∧ d ≠ '/' ∧ d.isDigit = false ∧
      opensWord d = false ∧ d ≠ '"' ∧ isOperatorChar d = false ∧ isSpace d = false :=
    List.all_iff_forall_prop.mp (by decide)
  obtain ⟨pound, slash, digit, word, quote, operator, space⟩ := others c (mem_signs_of_mark h) h
  have mark : Pattern.mark (c :: cs) = some 1 := if_pos h
  rw [front?_eq, directive_eq_none pound, comment_eq_none slash, number_eq_none digit,
    name_eq_none word, string_eq_none pound quote, poundName_eq_none pound,
    operator_eq_none operator, space_eq_none space, mark]
  simp

theorem front?_eq_none (word : opensWord c = false) (digit : c.isDigit = false)
    (sign : c ∉ signs) : front? (c :: cs) = none := by
  have ne : ∀ d ∈ signs, c ≠ d := by
    rintro d mem rfl
    exact sign mem
  have operator : isOperatorChar c = false :=
    Bool.eq_false_iff.mpr fun is => sign (mem_signs_of_operator is)
  have space : isSpace c = false := Bool.eq_false_iff.mpr fun is => sign (mem_signs_of_space is)
  have mark : Pattern.mark (c :: cs) = none :=
    if_neg fun is => sign (mem_signs_of_mark is)
  rw [front?_eq, directive_eq_none (ne '#' (by decide)), comment_eq_none (ne '/' (by decide)),
    number_eq_none digit, name_eq_none word,
    string_eq_none (ne '#' (by decide)) (ne '"' (by decide)), poundName_eq_none (ne '#' (by decide)),
    operator_eq_none operator, space_eq_none space, mark]
  rfl

/-- Where something matches, the first character is in ASCII. -/
theorem toNat_lt_of_front? {found : Lexical × Nat} (h : front? (c :: cs) = some found) :
    c.toNat < 128 := by
  have signs : ∀ d ∈ signs, d.toNat < 128 := List.all_iff_forall_prop.mp (by decide)
  by_cases sign : c ∈ Pattern.signs
  · exact signs c sign
  · cases digit : c.isDigit with
    | true => exact toNat_lt_of_isNamePart (isNamePart_of_isDigit digit)
    | false =>
      cases word : opensWord c with
      | true =>
        rcases Bool.or_eq_true_iff.mp word with special | start
        · rcases Bool.or_eq_true_iff.mp special with is | is <;> rw [eq_of_beq is] <;> decide
        · exact toNat_lt_of_isNamePart (isNamePart_of_isNameStart start)
      | false =>
        rw [front?_eq_none word digit sign] at h
        cases h

/-! ## How far a match reaches -/

/-- What matches is one of the patterns. -/
theorem exists_pattern {l : Lexical} {n : Nat} (h : front? cs = some (l, n)) :
    ∃ p, (l, p) ∈ patterns ∧ p cs = some n := by
  obtain ⟨⟨m, p⟩, mem, found⟩ := List.exists_of_findSome?_eq_some h
  obtain ⟨k, is, same⟩ := Option.map_eq_some_iff.mp found
  cases same
  exact ⟨p, mem, is⟩

/-- A match takes at least one character, and none that is not there. -/
theorem front?_bounds {l : Lexical} {n : Nat} (h : front? cs = some (l, n)) :
    0 < n ∧ n ≤ cs.length := by
  obtain ⟨p, mem, found⟩ := exists_pattern h
  simp only [patterns, List.mem_cons, Prod.mk.injEq, List.not_mem_nil, or_false] at mem
  rcases mem with ⟨-, rfl⟩ | ⟨-, rfl⟩ | ⟨-, rfl⟩ | ⟨-, rfl⟩ | ⟨-, rfl⟩ | ⟨-, rfl⟩ | ⟨-, rfl⟩ |
    ⟨-, rfl⟩ | ⟨-, rfl⟩
  · exact directive_bounds found
  · exact comment_bounds found
  · exact number_bounds found
  · exact name_bounds found
  · exact string_bounds found
  · exact poundName_bounds found
  · exact operator_bounds found
  · exact space_bounds found
  · exact mark_bounds found

end Lexical

/-! ## Plain names -/

/-- A name without a dollar sign or back quotes. -/
def IsPlainName (name : String) : Prop := Pattern.plainName name.toList = some name.length

instance (name : String) : Decidable (IsPlainName name) :=
  inferInstanceAs (Decidable (_ = _))

theorem IsPlainName.exists_cons {name : String} (plain : IsPlainName name) :
    ∃ c cs, name.toList = c :: cs ∧ Pattern.isNameStart c = true ∧
      ∀ d ∈ cs, Pattern.isNamePart d = true := by
  unfold IsPlainName at plain
  rw [← String.length_toList] at plain
  cases chars : name.toList with
  | nil =>
    rw [chars] at plain
    cases plain
  | cons c cs =>
    rw [chars, Pattern.plainName] at plain
    split at plain
    next start =>
      refine ⟨c, cs, rfl, start, ?_⟩
      have whole : (cs.takeWhile Pattern.isNamePart).length = cs.length := by
        have lengths := Option.some.inj plain
        simp only [Pattern.run, List.length_cons] at lengths
        omega
      have same : cs.takeWhile Pattern.isNamePart = cs :=
        (List.takeWhile_prefix Pattern.isNamePart).eq_of_length whole
      exact List.takeWhile_eq_self_iff.mp same
    next => cases plain

end Conformance
