import Conformance.Proofs.Grammar.Derivation
import Conformance.Proofs.Token.Reading

/-!
# Nested brackets

Whether brackets are balanced can be told from the kinds of tokens alone: an opening bracket
is put on a stack, and a closing one takes its partner off it (`nesting`).  A list of kinds
is *level* if it leaves the stack as it is.

Level tokens are the tokens of a balanced run, whatever braces in them are marked
(`exists_run`), and the tokens of runs, types and expressions are level.
-/

namespace Conformance.Grammar

/-! ## The stack -/

/-- The open brackets behind a token of a kind, the latest first.  A marked brace counts as any
other. -/
def nestKind (opened : List Bracket) (k : Kind) : Option (List Bracket) :=
  match Bracket.ofOpener? k.unmarked with
  | some b => some (b :: opened)
  | none =>
    if k.isBracket then
      match opened with
      | b :: rest => if b.closer = k then some rest else none
      | [] => none
    else some opened

/-- The open brackets behind tokens of some kinds, none if a closing bracket has no partner. -/
def nesting : (opened : List Bracket) → List Kind → Option (List Bracket)
  | opened, [] => some opened
  | opened, k :: ks => (nestKind opened k).bind (nesting · ks)

/-- Each bracket among some kinds has its partner there. -/
def IsLevel (ks : List Kind) : Prop := nesting [] ks = some []

instance (ks : List Kind) : Decidable (IsLevel ks) := inferInstanceAs (Decidable (_ = _))

section
variable {opened closed : List Bracket} {k : Kind} {ks js : List Kind}

@[simp] theorem nesting_nil : nesting opened [] = some opened := rfl

theorem nesting_cons : nesting opened (k :: ks) = (nestKind opened k).bind (nesting · ks) := rfl

theorem nesting_append :
    nesting opened (ks ++ js) = (nesting opened ks).bind (nesting · js) := by
  induction ks generalizing opened with
  | nil => rfl
  | cons k ks ih =>
    rw [List.cons_append, nesting_cons, nesting_cons, Option.bind_assoc]
    exact congrArg _ (funext fun o => ih)

theorem nestKind_plain (plain : k.isBracket = false) : nestKind opened k = some opened := by
  cases k <;> first | rfl | cases plain

theorem nestKind_unmarked : nestKind opened k.unmarked = nestKind opened k := by
  cases k <;> rfl

theorem nesting_unmarked : nesting opened (ks.map Kind.unmarked) = nesting opened ks := by
  induction ks generalizing opened with
  | nil => rfl
  | cons k ks ih => simp only [List.map_cons, nesting_cons, nestKind_unmarked, ih]

theorem nestKind_frame (h : nestKind opened k = some closed) (below : List Bracket) :
    nestKind (opened ++ below) k = some (closed ++ below) := by
  unfold nestKind at h ⊢
  split
  next b opens =>
    rw [opens] at h
    cases h
    rfl
  next none =>
    rw [none] at h
    dsimp only at h
    split at h
    next bracket =>
      rw [if_pos bracket]
      cases opened with
      | nil => cases h
      | cons b rest =>
        dsimp only [List.cons_append] at h ⊢
        split at h
        next closes =>
          cases h
          rw [if_pos closes]
        next => cases h
    next plain =>
      cases h
      rw [if_neg plain]

/-- What is below the brackets that count does not count. -/
theorem nesting_frame (h : nesting opened ks = some closed) (below : List Bracket) :
    nesting (opened ++ below) ks = some (closed ++ below) := by
  induction ks generalizing opened with
  | nil =>
    cases h
    rfl
  | cons k ks ih =>
    rw [nesting_cons, Option.bind_eq_some_iff] at h
    obtain ⟨middle, first, others⟩ := h
    rw [nesting_cons, nestKind_frame first, Option.bind_some]
    exact ih others

theorem IsLevel.nesting_eq (h : IsLevel ks) (opened : List Bracket) :
    nesting opened ks = some opened := nesting_frame h opened

/-! ## Level kinds -/

namespace IsLevel

theorem nil : IsLevel [] := rfl

theorem cons (plain : k.isBracket = false) (h : IsLevel ks) : IsLevel (k :: ks) := by
  rw [IsLevel, nesting_cons, nestKind_plain plain]
  exact h

theorem append (first : IsLevel ks) (second : IsLevel js) : IsLevel (ks ++ js) := by
  rw [IsLevel, nesting_append, first]
  exact second

/-- Level kinds in brackets are level. -/
theorem wrap (b : Bracket) (h : IsLevel ks) : IsLevel (b.opener :: ks ++ [b.closer]) := by
  rw [IsLevel, List.cons_append, nesting_cons]
  cases b <;> exact (nesting_append ..).trans (by rw [h.nesting_eq]; rfl)

theorem of_plain (plain : ∀ k ∈ ks, k.isBracket = false) : IsLevel ks := by
  induction ks with
  | nil => exact .nil
  | cons k ks ih =>
    exact .cons (plain k List.mem_cons_self) (ih fun j mem => plain j (List.mem_cons_of_mem k mem))

theorem flatMap {α : Type} {yield : α → List Kind} {as : List α}
    (each : ∀ a ∈ as, IsLevel (yield a)) : IsLevel (as.flatMap yield) := by
  induction as with
  | nil => exact .nil
  | cons a as ih =>
    exact (each a List.mem_cons_self).append (ih fun b mem => each b (List.mem_cons_of_mem a mem))

end IsLevel

end

/-! ## Level tokens are runs -/

/-- Tokens that close some brackets, the first of these first, with runs around each. -/
inductive Unwinds : List Bracket → List Token → Prop
  /-- Nothing is open any more. -/
  | done (r : Run) : Unwinds [] r.tokens
  /-- The first bracket is closed behind a run. -/
  | close {b : Bracket} {bs : List Bracket} {ts : List Token} (r : Run) (closing : Tok b.closer)
      (more : Unwinds bs ts) : Unwinds (b :: bs) (r.tokens ++ closing.val :: ts)

namespace Unwinds

variable {bs : List Bracket} {ts : List Token}

theorem word (t : PlainWord) (h : Unwinds bs ts) : Unwinds bs (t.val :: ts) := by
  cases h with
  | done r => exact .done (.word t r)
  | close r closing more => exact .close (.word t r) closing more

/-- A group takes the run up to its closing bracket, and the run behind it. -/
theorem group {b c : Bracket} (opening : Tok b.opener) (closers : c.closer = b.closer)
    (h : Unwinds (c :: bs) ts) : Unwinds bs (opening.val :: ts) := by
  cases h with
  | close r closing more =>
    let closing' : Tok b.closer := ⟨closing.val, closers ▸ closing.property⟩
    cases more with
    | done rest => exact .done (.group b opening r closing' rest)
    | @close d _ us rest last more =>
      have whole : opening.val :: (r.tokens ++ closing.val :: (rest.tokens ++ last.val :: us)) =
          (Run.group b opening r closing' rest).tokens ++ last.val :: us := by
        simp [Run.tokens, closing']
      rw [whole]
      exact .close _ last more

end Unwinds

/-- What a token does to the stack. -/
theorem nestKind_cases {opened closed : List Bracket} {k : Kind}
    (h : nestKind opened k = some closed) :
    (k.isBracket = false ∧ closed = opened) ∨
      (∃ b c : Bracket, b.opener = k ∧ c.closer = b.closer ∧ closed = c :: opened) ∨
      ∃ b : Bracket, b.closer = k ∧ opened = b :: closed := by
  unfold nestKind at h
  split at h
  next c opens =>
    obtain ⟨b, opener, closers⟩ : ∃ b : Bracket, b.opener = k ∧ c.closer = b.closer := by
      revert opens
      cases k <;> simp [Kind.unmarked, Bracket.ofOpener?] <;> rintro rfl
      · exact ⟨.paren, rfl, rfl⟩
      · exact ⟨.square, rfl, rfl⟩
      · exact ⟨.brace, rfl, rfl⟩
      · exact ⟨.observer, rfl, rfl⟩
    exact .inr (.inl ⟨b, c, opener, closers, (Option.some.inj h).symm⟩)
  next =>
    split at h
    next =>
      cases opened with
      | nil => cases h
      | cons b rest =>
        dsimp only at h
        split at h
        next closes =>
          cases h
          exact .inr (.inr ⟨b, closes, rfl⟩)
        next => cases h
    next plain =>
      cases h
      exact .inl ⟨Bool.eq_false_iff.mpr plain, rfl⟩

theorem unwinds_of_nesting {opened : List Bracket} {ts : List Token}
    (h : nesting opened (ts.map Token.kind) = some []) : Unwinds opened ts := by
  induction ts generalizing opened with
  | nil =>
    cases h
    exact .done .nil
  | cons t ts ih =>
    rw [List.map_cons, nesting_cons, Option.bind_eq_some_iff] at h
    obtain ⟨middle, here, others⟩ := h
    rcases nestKind_cases here with ⟨plain, rfl⟩ | ⟨b, c, opens, closers, rfl⟩ | ⟨b, closes, rfl⟩
    · exact .word ⟨t, by simp [plain]⟩ (ih others)
    · exact .group ⟨t, beq_iff_eq.mpr opens.symm⟩ closers (ih others)
    · exact .close .nil ⟨t, beq_iff_eq.mpr closes.symm⟩ (ih others)

/-- Level tokens are the tokens of a run. -/
theorem exists_run {ts : List Token} (h : IsLevel (ts.map Token.kind)) :
    ∃ r : Run, r.tokens = ts := by
  cases unwinds_of_nesting h with
  | done r => exact ⟨r, rfl⟩

/-! ## Phrases are level -/

theorem Run.isLevel (r : Run) : IsLevel (r.tokens.map Token.kind) := by
  induction r with
  | nil => exact .nil
  | word t rest ih => exact .cons (by simpa using t.property) ih
  | group b opening body closing rest ihBody ihRest =>
    have whole : (group b opening body closing rest).tokens.map Token.kind =
        (b.opener :: body.tokens.map Token.kind ++ [b.closer]) ++ rest.tokens.map Token.kind := by
      simp [tokens, opening.kind_eq, closing.kind_eq]
    rw [whole]
    exact (ihBody.wrap b).append ihRest

theorem Group.isLevel {b : Bracket} (g : Group b) : IsLevel (g.tokens.map Token.kind) := by
  have whole : g.tokens.map Token.kind =
      b.opener :: g.body.tokens.map Token.kind ++ [b.closer] := by
    simp [tokens, g.opening.kind_eq, g.closing.kind_eq]
  rw [whole]
  exact g.body.isLevel.wrap b

theorem Expression.isLevel (e : Expression) : IsLevel (e.tokens.map Token.kind) := by
  have each (a : ExpressionAtom) : IsLevel (a.tokens.map Token.kind) := by
    cases a with
    | plain a =>
      cases a with
      | word t =>
        have words : ∀ k : Kind, k.isExpressionWord = true → k.isBracket = false := by decide
        exact .cons (words _ t.property) .nil
      | group b admitted g => exact g.isLevel
    | member dot name =>
      have words : ∀ k : Kind, k.isMemberWord = true → k.isBracket = false := by decide
      exact .cons (by rw [dot.kind_eq]; rfl) (.cons (words _ name.property) .nil)
  rw [tokens, List.map_append, List.map_flatMap]
  exact (each e.first).append (.flatMap fun a _ => each a)

theorem IsLevel.tok {k : Kind} {ks : List Kind} (w : Tok k) (plain : k.isBracket = false)
    (h : IsLevel ks) : IsLevel (w.val.kind :: ks) :=
  .cons (by rw [w.kind_eq, plain]) h

theorem IsLevel.words {p : Kind → Bool} (plain : ∀ k, p k = true → k.isBracket = false)
    (ws : List (Word p)) : IsLevel ((ws.map Subtype.val).map Token.kind) := by
  rw [List.map_map]
  refine .of_plain fun k mem => ?_
  obtain ⟨w, -, rfl⟩ := List.mem_map.mp mem
  exact plain _ w.property

theorem TypeTree.isLevel {p : TypePart} (t : TypeTree p) : IsLevel (t.tokens.map Token.kind) := by
  have identifier : ∀ k : Kind, k.isIdentifier = true → k.isBracket = false := by decide
  induction t with
  | noConjunct | pathEnd | noArgument | noElement | lastElement => exact .nil
  | unlabelled type ih => exact ih
  | plain name => exact .tok name rfl .nil
  | attributed sign name type ih => exact .tok sign rfl (.tok name rfl ih)
  | prefixed word primary ih => exact .tok word rfl ih
  | labelled label colon type ih => exact .cons (identifier _ label.property) (.tok colon rfl ih)
  | relabelled outer inner colon type ih =>
    exact .tok outer rfl (.cons (identifier _ inner.property) (.tok colon rfl ih))
  | composed unit more ihUnit ihMore | named unit more ihUnit ihMore
  | someElements unit more ihUnit ihMore =>
    rw [tokens, List.map_append]
    exact ihUnit.append ihMore
  | conjunct sign unit more ihUnit ihMore | member sign unit more ihUnit ihMore
  | argument sign unit more ihUnit ihMore | moreElements sign unit more ihUnit ihMore =>
    rw [tokens, List.map_append]
    exact (IsLevel.tok sign rfl ihUnit).append ihMore
  | function unit effects arrow result ihUnit ihResult =>
    simp only [tokens, List.map_append]
    exact (ihUnit.append (.words (by decide) effects)).append (.tok arrow rfl ihResult)
  | marked primary marks ih =>
    simp only [tokens, List.map_append]
    exact ih.append (.words (by decide) marks)
  | generic name opening first others closing ihFirst ihOthers =>
    simp only [tokens, List.map_append]
    exact ((IsLevel.tok name rfl (.tok opening rfl ihFirst)).append ihOthers).append
      (.tok closing rfl .nil)
  | array opening element closing ih =>
    simp only [tokens, List.map_append, List.map_cons, List.map_nil, opening.kind_eq,
      closing.kind_eq]
    exact ih.wrap .square
  | dictionary opening key colon value closing ihKey ihValue =>
    simp only [tokens, List.map_append, List.map_cons, List.map_nil, opening.kind_eq,
      closing.kind_eq]
    have inner := (ihKey.append (.tok colon rfl ihValue)).wrap .square
    exact inner
  | tuple opening elements closing ih =>
    simp only [tokens, List.map_append, List.map_cons, List.map_nil, opening.kind_eq,
      closing.kind_eq]
    exact ih.wrap .paren

end Conformance.Grammar
