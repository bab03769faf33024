import Conformance.Proofs.Grammar.Completeness

/-!
# Parsers that stop at the first impossible token

A parser is *prompt* if it stops no later than it must, and no sooner.

* Where it gets stuck, what it has read opens a phrase.  So nothing in front of the place is
  to blame.
* Where it stops, the next token alone decides this.  Whatever stands behind that token, the
  parser comes to the same.  So no phrase goes on with the token.

The second part speaks of other inputs, which may be longer and want more fuel.  So the
statement is about a pair of parsers, which in use are one parser with fuel for either
input, and it bounds the inputs of both.

There is a lemma for each way of putting parsers together.  Looking ahead by more than one
token is the only way that does not preserve promptness by itself: where two tokens decide,
the parser has to take the first one in either case (`Prompt.lookTwice`).
-/

namespace Conformance.Grammar

variable {α β κ : Type}

/-! ## Prompt parsers -/

/-- The tokens that a parser leaves. -/
def Reading.rest : Reading α → List Token
  | done _ rest => rest
  | stuck rest => rest

theorem Parser.bind_stuck {p : Parser α} {ts rest : List Token} (h : p ts = .stuck rest)
    (f : α → Parser β) : (p >>= f) ts = .stuck rest := by
  rw [bind_apply, h]

theorem Parser.word_stuck {c : Kind → Bool} {t : Token} (no : c t.kind = false) (ts : List Token) :
    word c (t :: ts) = .stuck (t :: ts) := by
  simp [word, no]

/-- Whatever a parser reads is such a value. -/
def Parser.Always (good : α → Prop) (p : Parser α) : Prop :=
  ∀ ts a rest, p ts = .done a rest → good a

theorem Parser.always_bind {good : β → Prop} {p : Parser α} {f : α → Parser β}
    (each : ∀ a, Always good (f a)) : Always good (p >>= f) := by
  intro ts b rest read
  obtain ⟨a, mid, -, read⟩ := bind_eq_done.mp read
  exact each a mid b rest read

theorem Parser.always_pure {good : α → Prop} {a : α} (h : good a) : Always good (pure a) := by
  rintro ts b rest ⟨⟩
  exact h

theorem Parser.always_map {good : β → Prop} {p : Parser α} {f : α → β}
    (h : p.Always fun a => good (f a)) : (f <$> p).Always good := by
  intro ts b rest read
  obtain ⟨a, readA, rfl⟩ := map_eq_done.mp read
  exact h ts a rest readA

/-- Making something of a value leaves the same tokens. -/
theorem Reading.rest_bind_pure {p : Parser α} (f : α → β) (ts : List Token) :
    ((p >>= fun a => pure (f a)) ts).rest = (p ts).rest := by
  rw [Parser.bind_apply]
  cases p ts <;> rfl

/-- Some phrase begins with the tokens. -/
def Opens (yield : α → List Token) (ts : List Token) : Prop :=
  ∃ a more, yield a = ts ++ more

theorem Opens.of_append {yield : α → List Token} {ts us : List Token}
    (h : Opens yield (ts ++ us)) : Opens yield ts := by
  obtain ⟨a, more, eq⟩ := h
  exact ⟨a, us ++ more, by rw [eq, List.append_assoc]⟩

/-- On inputs of fewer tokens than a bound, a parser comes to the same result wherever it finds
what has been read, and the next token behind it. -/
def Again (p : Parser α) (bound : Nat) (read rest : List Token)
    (result : List Token → Reading α) : Prop :=
  ∀ t r, rest = t :: r → ∀ w, (read ++ t :: w).length < bound → p (read ++ t :: w) = result (t :: w)

/-- The next token is the first of any tokens that begin alike. -/
theorem Again.apply {p : Parser α} {bound : Nat} {read front r : List Token} {t : Token}
    {result : List Token → Reading α} (again : Again p bound read (front ++ t :: r) result)
    (w : List Token) (fits : (read ++ (front ++ t :: w)).length < bound) :
    p (read ++ (front ++ t :: w)) = result (front ++ t :: w) := by
  cases front with
  | nil => exact again t r rfl w fits
  | cons u front => exact again u _ rfl _ fits

/-- Two parsers in a row come to the same again if both do. -/
theorem Again.bind {p : Parser α} {f : α → Parser β} {bound bound' : Nat}
    {front front' rest : List Token} {a : α} {result : List Token → Reading β}
    (first : Again p bound front (front' ++ rest) (.done a))
    (second : Again (f a) bound' front' rest result) (enough : bound ≤ bound' + front.length) :
    Again (p >>= f) bound (front ++ front') rest result := by
  rintro t r rfl w fits
  rw [List.append_assoc] at fits ⊢
  rw [Parser.bind_done (first.apply w fits)]
  rw [List.length_append] at fits
  exact second t r rfl w (by omega)

/-- A parser is prompt on inputs of fewer than `m` tokens, compared with one on inputs of fewer than
`n` tokens.  It reads a phrase from behind `before`, which is its front. -/
structure Prompt (yield : α → List Token) (opens : List Token → Prop) (before : List Token)
    (m n : Nat) (p q : Parser α) : Prop where
  /-- The front opens a phrase. -/
  start : opens before
  /-- Tokens are taken in order, and the next one decides where the phrase ends. -/
  done : ∀ {ts : List Token} {a : α} {rest : List Token}, ts.length < m → p ts = .done a rest →
    ∃ read, ts = read ++ rest ∧ yield a = before ++ read ∧ Again q n read rest (.done a)
  /-- What has been read where the parser is stuck opens a phrase, and the next token decides that
  it gets stuck. -/
  stuck : ∀ {ts rest : List Token}, ts.length < m → p ts = .stuck rest →
    ∃ read, ts = read ++ rest ∧ opens (before ++ read) ∧ Again q n read rest .stuck

/-- A parser of whole phrases is prompt. -/
abbrev IsPrompt (yield : α → List Token) (m n : Nat) (p q : Parser α) : Prop :=
  Prompt yield (Opens yield) [] m n p q

namespace Prompt

variable {yield : α → List Token} {opens : List Token → Prop} {before : List Token} {m n : Nat}
  {p q : Parser α}

theorem pure_of_opens {a : α} (h : yield a = before) (opened : opens before) :
    Prompt yield opens before m n (Pure.pure a) (Pure.pure a) where
  start := opened
  done := by
    rintro ts b rest - ⟨⟩
    refine ⟨[], rfl, by rw [h, List.append_nil], ?_⟩
    intro t r _ w _
    rfl
  stuck := by
    rintro ts rest - ⟨⟩

theorem pure {a : α} (h : yield a = before) :
    Prompt yield (Opens yield) before m n (Pure.pure a) (Pure.pure a) :=
  pure_of_opens h ⟨a, [], by rw [h, List.append_nil]⟩

/-- Being stuck at once is prompt where a phrase has been opened. -/
theorem stuck_self (h : opens before) :
    Prompt yield opens before m n Parser.stuck Parser.stuck where
  start := h
  done := by
    rintro ts b rest - ⟨⟩
  stuck := by
    rintro ts rest - ⟨⟩
    refine ⟨[], rfl, by rwa [List.append_nil], ?_⟩
    intro t r _ w _
    rfl

theorem word {c : Kind → Bool} {k : Kind} (some : c k = true) :
    Prompt (fun w : Word c => [w.val]) (Opens fun w : Word c => [w.val]) [] m n (Parser.word c)
      (Parser.word c) := by
  have opens : Opens (fun w : Word c => [w.val]) [] :=
    ⟨⟨⟨k, "", "", .origin, .origin⟩, some⟩, _, rfl⟩
  refine ⟨opens, ?_, ?_⟩
  · intro ts w rest _ read
    rw [Parser.word_eq_done] at read
    subst read
    refine ⟨[w.val], rfl, rfl, ?_⟩
    intro t r _ more _
    exact Parser.word_cons w (t :: more)
  · intro ts rest _ read
    cases ts with
    | nil =>
      cases read
      exact ⟨[], rfl, opens, by rintro t r ⟨⟩⟩
    | cons t ts =>
      simp only [Parser.word] at read
      split at read
      · cases read
      next no =>
        cases read
        refine ⟨[], rfl, opens, ?_⟩
        rintro u r ⟨⟩ w _
        exact Parser.word_stuck (Bool.eq_false_iff.mpr no) w

theorem token (k : Kind) :
    Prompt (fun w : Tok k => [w.val]) (Opens fun w : Tok k => [w.val]) [] m n (Parser.token k)
      (Parser.token k) :=
  word (beq_self_eq_true k)

theorem mono {m' n' : Nat} (h : Prompt yield opens before m n p q) (less : m' ≤ m)
    (less' : n' ≤ n) : Prompt yield opens before m' n' p q where
  start := h.start
  done := by
    intro ts a rest bound read
    obtain ⟨front, eq, yields, again⟩ := h.done (Nat.lt_of_lt_of_le bound less) read
    exact ⟨front, eq, yields, fun t r here w bound => again t r here w (Nat.lt_of_lt_of_le bound less')⟩
  stuck := by
    intro ts rest bound read
    obtain ⟨front, eq, opened, again⟩ := h.stuck (Nat.lt_of_lt_of_le bound less) read
    exact ⟨front, eq, opened, fun t r here w bound => again t r here w (Nat.lt_of_lt_of_le bound less')⟩

/-- Where no token is allowed, anything may be compared with. -/
theorem other {n' : Nat} {q' : Parser α} (h : Prompt yield opens before m n p q) (none : n' ≤ 1) :
    Prompt yield opens before m n' p q' where
  start := h.start
  done := by
    intro ts a rest bound read
    obtain ⟨front, eq, yields, -⟩ := h.done bound read
    refine ⟨front, eq, yields, fun t r _ w fits => ?_⟩
    rw [List.length_append, List.length_cons] at fits
    omega
  stuck := by
    intro ts rest bound read
    obtain ⟨front, eq, opened, -⟩ := h.stuck bound read
    refine ⟨front, eq, opened, fun t r _ w fits => ?_⟩
    rw [List.length_append, List.length_cons] at fits
    omega

/-- Where nothing is allowed, anything is prompt. -/
theorem nothing (h : opens before) : Prompt yield opens before 0 n p q where
  start := h
  done := by
    intro ts a rest bound
    cases bound
  stuck := by
    intro ts rest bound
    cases bound

/-! ## One behind another -/

section
variable {yield' : β → List Token} {opens' : List Token → Prop} {f g : α → Parser β}

/-- What opens the first phrase has to open the whole, and the second parser only has to be prompt
behind a first phrase that is good, as all are that are read. -/
theorem bind_of_opened {opens : List Token → Prop} {x outer : List Token} (good : α → Prop)
    (join : outer ++ x = before) (first : Prompt yield opens x m n p q)
    (opened : ∀ ts, opens ts → opens' (outer ++ ts))
    (isGood : Parser.Always good p)
    (second : ∀ a read, yield a = x ++ read → good a →
      Prompt yield' opens' (outer ++ yield a) (m - read.length) (n - read.length) (f a) (g a)) :
    Prompt yield' opens' before m n (p >>= f) (q >>= g) := by
  subst join
  refine ⟨opened x first.start, ?_, ?_⟩
  · intro ts b rest bound read
    obtain ⟨a, mid, readA, readB⟩ := Parser.bind_eq_done.mp read
    obtain ⟨front, rfl, yieldA, againA⟩ := first.done bound readA
    rw [List.length_append] at bound
    obtain ⟨front', rfl, yieldB, againB⟩ :=
      (second a front yieldA (isGood _ _ _ readA)).done (by omega) readB
    refine ⟨front ++ front', by simp, by simp [yieldB, yieldA], againA.bind againB ?_⟩
    omega
  · intro ts rest bound read
    rw [Parser.bind_apply] at read
    cases readA : p ts with
    | stuck mid =>
      rw [readA] at read
      cases read
      obtain ⟨front, rfl, opensA, againA⟩ := first.stuck bound readA
      refine ⟨front, rfl, by simpa using opened _ opensA, ?_⟩
      intro t r here w fits
      rw [Parser.bind_apply, againA t r here w fits]
    | done a mid =>
      rw [readA] at read
      obtain ⟨front, rfl, yieldA, againA⟩ := first.done bound readA
      rw [List.length_append] at bound
      obtain ⟨front', rfl, opensB, againB⟩ :=
        (second a front yieldA (isGood _ _ _ readA)).stuck (by omega) read
      refine ⟨front ++ front', by simp, by simpa [yieldA] using opensB, againA.bind againB ?_⟩
      omega

theorem bind (first : IsPrompt yield m n p q)
    (second : ∀ a, Prompt yield' (Opens yield') (before ++ yield a) (m - (yield a).length)
      (n - (yield a).length) (f a) (g a)) :
    Prompt yield' (Opens yield') before m n (p >>= f) (q >>= g) := by
  refine bind_of_opened (fun _ => True) (List.append_nil before) first ?_ ?_ ?_
  · rintro ts ⟨a, more, eq⟩
    have start := (second a).start
    rw [eq, ← List.append_assoc] at start
    exact start.of_append
  · intro _ _ _ _
    trivial
  · rintro a read eq -
    have same : yield a = read := eq
    exact same ▸ second a

/-- A word of a class, and what is behind it. -/
theorem wordThen {c : Kind → Bool} {k : Kind} (some : c k = true) {f g : Word c → Parser β}
    (second : ∀ w, Prompt yield' (Opens yield') (before ++ [w.val]) (m - 1) (n - 1) (f w) (g w)) :
    Prompt yield' (Opens yield') before m n (Parser.word c >>= f) (Parser.word c >>= g) :=
  bind (word some) second

/-- A token of one kind, and what is behind it. -/
theorem tokenThen {k : Kind} {f g : Tok k → Parser β}
    (second : ∀ w, Prompt yield' (Opens yield') (before ++ [w.val]) (m - 1) (n - 1) (f w) (g w)) :
    Prompt yield' (Opens yield') before m n (Parser.token k >>= f) (Parser.token k >>= g) :=
  bind (token k) second

theorem map {f : α → β} (first : Prompt yield (Opens yield) before m n p q)
    (yields : ∀ a, yield' (f a) = yield a) :
    Prompt yield' (Opens yield') before m n (f <$> p) (f <$> q) := by
  have opened {ts : List Token} : Opens yield ts → Opens yield' ts := by
    rintro ⟨a, more, eq⟩
    exact ⟨f a, more, by rw [yields, eq]⟩
  refine ⟨opened first.start, ?_, ?_⟩
  · intro ts b rest bound read
    obtain ⟨a, readA, rfl⟩ := Parser.map_eq_done.mp read
    obtain ⟨front, eq, yieldA, again⟩ := first.done bound readA
    refine ⟨front, eq, by rw [yields, yieldA], ?_⟩
    intro t r here w fits
    exact Parser.map_done (again t r here w fits) f
  · intro ts rest bound read
    cases readA : p ts with
    | done a mid =>
      rw [Parser.map_done readA] at read
      cases read
    | stuck mid =>
      have same : (f <$> p) ts = .stuck mid := by
        change (match p ts with
          | .done a rest => Reading.done (f a) rest
          | .stuck rest => .stuck rest) = _
        rw [readA]
      rw [same] at read
      cases read
      obtain ⟨front, eq, opensA, again⟩ := first.stuck bound readA
      refine ⟨front, eq, opened opensA, ?_⟩
      intro t r here w fits
      change (match q (front ++ t :: w) with
        | .done a rest => Reading.done (f a) rest
        | .stuck rest => .stuck rest) = _
      rw [again t r here w fits]

/-- Something made of a phrase, behind a front. -/
theorem mapThen {f : α → β} (first : IsPrompt yield m n p q)
    (yields : ∀ a, yield' (f a) = before ++ yield a) :
    Prompt yield' (Opens yield') before m n (f <$> p) (f <$> q) :=
  bind first fun a => pure (yields a)

end

/-! ## Choices -/

/-- Looking ahead is prompt if tokens behind the next one only count where that one is taken.
Whether it is taken can be tried with nothing behind it. -/
theorem look (see : List Token → κ) {f g : κ → Parser α}
    (each : ∀ k, Prompt yield opens before m n (f k) (g k))
    (steady : ∀ read t r w, (read ++ t :: w).length < n →
      (g (see (read ++ t :: r)) (read ++ [t])).rest = [t] →
      g (see (read ++ t :: w)) (read ++ t :: w) = g (see (read ++ t :: r)) (read ++ t :: w)) :
    Prompt yield opens before m n (fun ts => f (see ts) ts) (fun ts => g (see ts) ts) := by
  have alone {read : List Token} {t : Token} {w : List Token}
      (fits : (read ++ t :: w).length < n) : (read ++ [t]).length < n := by
    simp only [List.length_append, List.length_cons, List.length_nil] at fits ⊢
    omega
  refine ⟨(each (see [])).start, ?_, ?_⟩
  · intro ts a rest bound read
    obtain ⟨front, rfl, yields, again⟩ := (each _).done bound read
    refine ⟨front, rfl, yields, ?_⟩
    rintro t r rfl w fits
    have here := congrArg Reading.rest (again t r rfl [] (alone fits))
    exact (steady front t r w fits here).trans (again t r rfl w fits)
  · intro ts rest bound read
    obtain ⟨front, rfl, opened, again⟩ := (each _).stuck bound read
    refine ⟨front, rfl, opened, ?_⟩
    rintro t r rfl w fits
    have here := congrArg Reading.rest (again t r rfl [] (alone fits))
    exact (steady front t r w fits here).trans (again t r rfl w fits)

/-- Where two tokens decide, either the second one does not count, or the first is taken whatever
the second one is. -/
theorem lookTwice (see : Option Kind → Option Kind → κ) {f g : κ → Parser α}
    (each : ∀ k, Prompt yield opens before m n (f k) (g k))
    (steady : ∀ (t : Token) (w : List Token), (t :: w).length < n →
      (∀ a b, g (see (some t.kind) a) (t :: w) = g (see (some t.kind) b) (t :: w)) ∨
        ∀ a, (g (see (some t.kind) a) [t]).rest = []) :
    Prompt yield opens before m n
      (fun ts => f (see (ts.head?.map Token.kind) (ts.tail.head?.map Token.kind)) ts)
      (fun ts => g (see (ts.head?.map Token.kind) (ts.tail.head?.map Token.kind)) ts) := by
  refine look (fun ts => see (ts.head?.map Token.kind) (ts.tail.head?.map Token.kind)) each ?_
  intro read t r w fits rest
  cases read with
  | cons u read => cases read <;> rfl
  | nil =>
    rcases steady t w fits with same | taken
    · exact same _ _
    · cases rest.symm.trans (taken _)

/-- What the next token is may always be looked at. -/
theorem peek {f g : Option Kind → Parser α}
    (each : ∀ k, Prompt yield opens before m n (f k) (g k)) :
    Prompt yield opens before m n (Parser.peek >>= f) (Parser.peek >>= g) := by
  refine look (fun ts => ts.head?.map Token.kind) each fun read t r w _ _ => ?_
  cases read <;> rfl

theorem ite {c : Prop} [Decidable c] {p' q' : Parser α} (yes : Prompt yield opens before m n p q)
    (no : Prompt yield opens before m n p' q') :
    Prompt yield opens before m n (if c then p else p') (if c then q else q') := by
  split
  · exact yes
  · exact no

theorem optional {starts : Kind → Bool} (h : Prompt yield (Opens yield) [] m n p q) :
    Prompt (optionTokens yield) (Opens (optionTokens yield)) [] m n (Parser.optional starts p)
      (Parser.optional starts q) :=
  peek fun _ => ite (h.map fun _ => rfl) (pure rfl)

/-! ## Repetition -/

theorem many {starts : Kind → Bool} {fuel fuel' : Nat}
    (h : Prompt yield (Opens yield) [] m n p q) (nonempty : ∀ a, yield a ≠ [])
    (enough : m ≤ fuel + 1) (enough' : n ≤ fuel' + 1) :
    IsPrompt (List.flatMap yield) m n
      (Parser.many starts p fuel) (Parser.many starts q fuel') := by
  induction fuel generalizing m n fuel' with
  | zero =>
    -- Nothing is left, so nothing is read.
    refine ⟨⟨[], [], rfl⟩, ?_, ?_⟩
    · intro ts as rest bound read
      obtain rfl := List.eq_nil_of_length_eq_zero (show ts.length = 0 by omega)
      cases read
      exact ⟨[], rfl, rfl, by rintro t r ⟨⟩⟩
    · rintro ts rest - ⟨⟩
  | succ fuel ih =>
    have more : ∀ {n fuel'}, Prompt yield (Opens yield) [] m n p q → n ≤ fuel' + 2 →
        IsPrompt (List.flatMap yield) m n
          (Parser.many starts p (fuel + 1)) (Parser.many starts q (fuel' + 1)) := by
      intro n fuel' h enough'
      refine peek fun _ => ite (bind h fun a => ?_) (pure rfl)
      have pos := List.length_pos_iff.mpr (nonempty a)
      exact bind (ih (h.mono (by omega) (by omega)) (by omega) (by omega)) fun as =>
        pure (by simp)
    cases fuel' with
    | zero =>
      have none : Prompt yield (Opens yield) [] m 0 p q := h.mono (Nat.le_refl m) (Nat.zero_le n)
      exact (@more 0 0 none (Nat.zero_le 2)).other enough'
    | succ fuel' => exact more h enough'

theorem listed {fuel fuel' : Nat} (h : IsPrompt yield m n p q) (enough : m ≤ fuel + 1)
    (enough' : n ≤ fuel' + 1) :
    IsPrompt (Listed.tokens yield) m n (Parser.listed p fuel) (Parser.listed q fuel') := by
  have pair : IsPrompt (fun (o : Tok .comma × α) => o.1.val :: yield o.2) m n
      (do let comma ← Parser.token .comma; let a ← p; Pure.pure (comma, a))
      (do let comma ← Parser.token .comma; let a ← q; Pure.pure (comma, a)) :=
    tokenThen fun comma => bind (h.mono (Nat.sub_le ..) (Nat.sub_le ..)) fun a => pure rfl
  refine bind h fun first => ?_
  refine bind (many (pair.mono ?_ ?_) (by simp) ?_ ?_) fun others => pure rfl
  · exact Nat.sub_le ..
  · exact Nat.sub_le ..
  · exact Nat.le_trans (Nat.sub_le ..) enough
  · exact Nat.le_trans (Nat.sub_le ..) enough'

end Prompt

/-! ## Groups -/

theorem Run.prompt {m n fuel fuel' : Nat} (enough : m ≤ fuel) (enough' : n ≤ fuel') :
    IsPrompt Run.tokens m n (Run.parse fuel) (Run.parse fuel') := by
  induction fuel generalizing m n fuel' with
  | zero =>
    obtain rfl := Nat.le_zero.mp enough
    exact .nothing ⟨nil, [], rfl⟩
  | succ fuel ih =>
    have more : ∀ {n fuel'}, n ≤ fuel' + 1 → IsPrompt Run.tokens m n
        (Run.parse (fuel + 1)) (Run.parse (fuel' + 1)) := by
      intro n fuel' enough'
      refine .peek fun k => ?_
      cases k with
      | none => exact .pure rfl
      | some k =>
        refine .ite ?_ (.wordThen (k := .name) rfl fun t =>
          .bind (ih (by omega) (by omega)) fun rest => .pure rfl)
        cases opener : Bracket.ofOpener? k with
        | none => exact .pure rfl
        | some b =>
          refine .tokenThen fun opening => .bind (ih (by omega) (by omega)) fun body => ?_
          refine .tokenThen fun closing => .bind (ih (by omega) (by omega)) fun rest => .pure ?_
          simp [tokens]
    cases fuel' with
    | zero => exact (@more 0 0 (Nat.zero_le 1)).other (by omega)
    | succ fuel' => exact more enough'

theorem Group.prompt (b : Bracket) {m n fuel fuel' : Nat} (enough : m ≤ fuel + 1)
    (enough' : n ≤ fuel' + 1) :
    IsPrompt tokens m n (parse b fuel) (parse b fuel') := by
  refine .tokenThen fun opening => .bind (Run.prompt (by omega) (by omega)) fun body => ?_
  exact .tokenThen fun closing => .pure (by simp [tokens])

theorem Group.prompt? (b : Bracket) {m n fuel fuel' : Nat} (enough : m ≤ fuel + 1)
    (enough' : n ≤ fuel' + 1) :
    IsPrompt (optionTokens tokens) m n (parse? b fuel) (parse? b fuel') :=
  .optional (Group.prompt b enough enough')

/-! ## Atoms -/

namespace Atom

variable {words : Kind → Bool} {brackets : Bracket → Bool} {m n fuel fuel' : Nat}

theorem prompt {k : Kind} (some : words k = true) (enough : m ≤ fuel + 1)
    (enough' : n ≤ fuel' + 1) :
    IsPrompt tokens m n (parse words brackets fuel) (parse words brackets fuel') := by
  have word : Opens (fun a : Atom words brackets => a.tokens) [] :=
    ⟨.word ⟨⟨k, "", "", .origin, .origin⟩, some⟩, _, rfl⟩
  refine .peek fun k => ?_
  cases k.bind Bracket.ofOpener? with
  | none => exact (Prompt.word some).map fun _ => rfl
  | some b =>
    dsimp only
    split
    · exact (Group.prompt b enough enough').map fun _ => rfl
    · exact .stuck_self word

theorem tokens_ne_nil (a : Atom words brackets) : a.tokens ≠ [] := by
  cases a <;> simp [tokens, Group.tokens]

theorem prompt_many {k : Kind} (some : words k = true) (enough : m ≤ fuel + 1)
    (enough' : n ≤ fuel' + 1) :
    IsPrompt (List.flatMap tokens) m n (parseMany words brackets fuel)
      (parseMany words brackets fuel') :=
  (prompt some enough enough').many tokens_ne_nil enough enough'

end Atom

theorem Signature.prompt {m n fuel fuel' : Nat} (enough : m ≤ fuel + 1) (enough' : n ≤ fuel' + 1) :
    IsPrompt tokens m n (parse fuel) (parse fuel') :=
  Atom.prompt_many (k := .name) rfl enough enough'

/-! ## Expressions -/

section
variable {m n fuel fuel' : Nat}

theorem ExpressionAtom.prompt (enough : m ≤ fuel + 1) (enough' : n ≤ fuel' + 1) :
    IsPrompt tokens m n (parse fuel) (parse fuel') := by
  let choice (fuel : Nat) (member : Bool) : Parser ExpressionAtom :=
    if member then do
      let dot ← Parser.token .dot
      let name ← Parser.word Kind.isMemberWord
      pure (.member dot name)
    else plain <$> Atom.parse Kind.isExpressionWord Bracket.isPlain fuel
  have each (member : Bool) : IsPrompt tokens m n (choice fuel member) (choice fuel' member) := by
    refine .ite (.tokenThen fun dot => .wordThen (k := .initKw) rfl fun name => .pure rfl) ?_
    exact (Atom.prompt (k := .name) rfl enough enough').map fun _ => rfl
  refine Prompt.lookTwice (fun a b => a == some .dot && b.any Kind.isMemberWord) each
    fun t w fits => ?_
  rw [List.length_cons] at fits
  -- A dot is taken in either case, and the token behind any other does not count.
  cases dot : t.kind == .dot with
  | false => simp [dot]
  | true =>
    have words : ∀ k : Kind, (k == .dot) = true → k.isExpressionWord = true := by decide
    have taken (member : Bool) : (choice fuel' member [t]).rest = [] := by
      cases member with
      | true =>
        have read := Parser.bind_done (Parser.token_cons ⟨t, dot⟩ [])
          fun dot => Parser.word Kind.isMemberWord >>= fun name =>
            pure (ExpressionAtom.member dot name)
        exact congrArg Reading.rest read
      | false =>
        have read : Reads (Atom.parse Kind.isExpressionWord Bracket.isPlain fuel') Atom.tokens
            (.word ⟨t, words _ dot⟩) [] :=
          Atom.reads noOpener_expression _ (show 1 ≤ fuel' by omega)
        exact congrArg Reading.rest (Parser.map_done read plain)
    exact .inr fun _ => taken _

theorem Expression.prompt (enough : m ≤ fuel + 1) (enough' : n ≤ fuel' + 1) :
    IsPrompt tokens m n (parse fuel) (parse fuel') := by
  have nonempty (a : ExpressionAtom) : a.tokens ≠ [] := by
    cases a with
    | plain a => exact a.tokens_ne_nil
    | member => simp [ExpressionAtom.tokens]
  refine .bind (ExpressionAtom.prompt enough enough') fun first => .bind (.many
    ((ExpressionAtom.prompt enough enough').mono (Nat.sub_le ..) (Nat.sub_le ..)) nonempty ?_ ?_)
    fun others => .pure rfl
  · exact Nat.le_trans (Nat.sub_le ..) enough
  · exact Nat.le_trans (Nat.sub_le ..) enough'

theorem Initializer.prompt? (enough : m ≤ fuel + 1) (enough' : n ≤ fuel' + 1) :
    IsPrompt (optionTokens tokens) m n (parse? fuel) (parse? fuel') :=
  .optional (.tokenThen fun equal => .bind (Expression.prompt (by omega) (by omega)) fun value =>
    .pure rfl)

end

end Conformance.Grammar
