import Conformance.Token.Basic

/-!
# Reading tokens one at a time

A parser takes the tokens that are left.  It is `done` with a value and the
tokens behind it, or `stuck` in front of the first token that no continuation
of what it has read can start with.  It never goes back: the grammar of
declarations is such that the next one or two tokens decide every choice.

A token in a phrase is a `Word`: a token with the proof that its kind is of the
class that the phrase asks for.  So a phrase is well formed by its type, and its
tokens can be listed back from it.
-/

namespace Conformance.Grammar

/-! ## Words -/

/-- A token of a class of kinds. -/
abbrev Word (p : Kind → Bool) := { t : Token // p t.kind = true }

/-- A token of one kind. -/
abbrev Tok (k : Kind) := Word (· == k)

/-- The text of a word. -/
def Word.text {p : Kind → Bool} (w : Word p) : String := w.val.text

theorem Word.kind_eq {k : Kind} (w : Tok k) : w.val.kind = k := beq_iff_eq.mp w.property

/-- One item, and others each behind a comma. -/
structure Listed (α : Type) where
  /-- The first item. -/
  first : α
  /-- The others with their commas. -/
  others : List (Tok .comma × α)

/-- The items without their commas. -/
def Listed.toList {α : Type} (l : Listed α) : List α := l.first :: l.others.map Prod.snd

/-- The tokens of a list of phrases. -/
def Listed.tokens {α : Type} (yield : α → List Token) (l : Listed α) : List Token :=
  yield l.first ++ l.others.flatMap fun (comma, a) => comma.val :: yield a

/-- The tokens of a phrase that may be missing. -/
def optionTokens {α : Type} (yield : α → List Token) : Option α → List Token
  | some a => yield a
  | none => []

/-! ## Parsers -/

/-- What a parser comes to. -/
inductive Reading (α : Type) where
  /-- The value, and the tokens behind it. -/
  | done (value : α) (rest : List Token)
  /-- The tokens from the first impossible one on, none at the end of the input. -/
  | stuck (rest : List Token)

/-- Reads a value off the tokens that are left. -/
def Parser (α : Type) := List Token → Reading α

namespace Parser

variable {α β : Type}

/-- Reads nothing. -/
protected def pure (a : α) : Parser α := fun ts => .done a ts

/-- Reads one thing behind another. -/
protected def bind (p : Parser α) (f : α → Parser β) : Parser β := fun ts =>
  match p ts with
  | .done a rest => f a rest
  | .stuck rest => .stuck rest

instance : Monad Parser where
  pure := Parser.pure
  bind := Parser.bind

/-- No token is possible here. -/
def stuck : Parser α := fun ts => .stuck ts

/-- The kind of the next token, without reading it. -/
def peek : Parser (Option Kind) := fun ts => .done (ts.head?.map Token.kind) ts

/-- The kind of the token behind the next one, without reading either. -/
def peekSecond : Parser (Option Kind) := fun ts => .done (ts.tail.head?.map Token.kind) ts

/-- A token of a class. -/
def word (p : Kind → Bool) : Parser (Word p)
  | [] => .stuck []
  | t :: rest => if h : p t.kind = true then .done ⟨t, h⟩ rest else .stuck (t :: rest)

/-- A token of one kind. -/
def token (k : Kind) : Parser (Tok k) := word (· == k)

/-- A phrase if the next token may start it. -/
def optional (starts : Kind → Bool) (p : Parser α) : Parser (Option α) := do
  if (← peek).any starts then some <$> p else pure none

/-- Phrases as long as the next token may start one.  Each takes a token at least, so as much
fuel as there are tokens is enough. -/
def many (starts : Kind → Bool) (p : Parser α) : (fuel : Nat) → Parser (List α)
  | 0 => pure []
  | fuel + 1 => do
    if (← peek).any starts then
      let a ← p
      let more ← many starts p fuel
      pure (a :: more)
    else pure []

/-- Phrases with commas between them, at least one. -/
def listed (p : Parser α) (fuel : Nat) : Parser (Listed α) := do
  let first ← p
  let others ← many (· == .comma) (do
    let comma ← token .comma
    let a ← p
    pure (comma, a)) fuel
  pure ⟨first, others⟩

/-! ## Equations -/

theorem pure_apply (a : α) (ts : List Token) : (pure a : Parser α) ts = .done a ts := rfl

theorem bind_apply (p : Parser α) (f : α → Parser β) (ts : List Token) :
    (p >>= f) ts = match p ts with
      | .done a rest => f a rest
      | .stuck rest => .stuck rest := rfl

theorem bind_eq_done {p : Parser α} {f : α → Parser β} {ts rest : List Token} {b : β} :
    (p >>= f) ts = .done b rest ↔ ∃ a mid, p ts = .done a mid ∧ f a mid = .done b rest := by
  rw [bind_apply]
  cases p ts with
  | done a mid =>
    constructor
    · intro h
      exact ⟨a, mid, rfl, h⟩
    · rintro ⟨_, _, ⟨⟩, h⟩
      exact h
  | stuck mid => simp

theorem bind_done {p : Parser α} {ts mid : List Token} {a : α} (h : p ts = .done a mid)
    (f : α → Parser β) : (p >>= f) ts = f a mid := by
  rw [bind_apply, h]

theorem map_done {p : Parser α} {ts rest : List Token} {a : α} (h : p ts = .done a rest)
    (f : α → β) : (f <$> p) ts = .done (f a) rest :=
  bind_done h _

theorem map_eq_done {f : α → β} {p : Parser α} {ts rest : List Token} {b : β} :
    (f <$> p) ts = .done b rest ↔ ∃ a, p ts = .done a rest ∧ f a = b := by
  change (p >>= fun a => pure (f a)) ts = .done b rest ↔ _
  rw [bind_eq_done]
  constructor
  · rintro ⟨a, mid, first, second⟩
    rw [pure_apply] at second
    cases second
    exact ⟨a, first, rfl⟩
  · rintro ⟨a, first, rfl⟩
    exact ⟨a, rest, first, rfl⟩

theorem peek_bind (f : Option Kind → Parser β) (ts : List Token) :
    (peek >>= f) ts = f (ts.head?.map Token.kind) ts := rfl

theorem peekSecond_bind (f : Option Kind → Parser β) (ts : List Token) :
    (peekSecond >>= f) ts = f (ts.tail.head?.map Token.kind) ts := rfl

theorem peek_bind_eq_done {f : Option Kind → Parser β} {ts rest : List Token} {b : β} :
    (peek >>= f) ts = .done b rest ↔ f (ts.head?.map Token.kind) ts = .done b rest := .rfl

theorem word_cons {p : Kind → Bool} (w : Word p) (rest : List Token) :
    word p (w.val :: rest) = .done w rest := by
  simp [word, w.property]

theorem token_cons {k : Kind} (w : Tok k) (rest : List Token) :
    token k (w.val :: rest) = .done w rest := word_cons w rest

theorem word_eq_done {p : Kind → Bool} {ts rest : List Token} {w : Word p} :
    word p ts = .done w rest ↔ ts = w.val :: rest := by
  constructor
  · intro h
    cases ts with
    | nil => cases h
    | cons t more =>
      simp only [word] at h
      split at h
      · cases h
        rfl
      · cases h
  · rintro rfl
    exact word_cons w rest

end Parser

end Conformance.Grammar
