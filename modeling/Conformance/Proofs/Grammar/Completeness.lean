import Conformance.Proofs.Grammar.Derivation

/-!
# What is written is read

The converse of soundness: in front of the tokens of a phrase its parser comes to
that very phrase, and stops behind it.

A phrase ends where the next token cannot belong to it any more, so each statement
has a condition on the token behind the phrase, `Ahead`.  A parser also needs its
fuel: eight units for each token of the phrase, and a few for the levels above its
first token.
-/

namespace Conformance.Grammar

/-! ## The next token -/

/-- The next token is of a class, if there is one. -/
def Ahead (p : Kind → Bool) (ts : List Token) : Prop := (ts.head?.map Token.kind).all p = true

/-- There is a next token, and it is of a class. -/
def Starts (p : Kind → Bool) (ts : List Token) : Prop := (ts.head?.map Token.kind).any p = true

/-- The next token is not of a class. -/
def Stops (p : Kind → Bool) (ts : List Token) : Prop := (ts.head?.map Token.kind).any p = false

section
variable {p q : Kind → Bool} {t : Token} {ts us : List Token}

@[simp] theorem ahead_nil : Ahead p [] := rfl

@[simp] theorem ahead_cons : Ahead p (t :: ts) ↔ p t.kind = true := by simp [Ahead]

@[simp] theorem starts_cons : Starts p (t :: ts) ↔ p t.kind = true := by simp [Starts]

@[simp] theorem stops_nil : Stops p [] := rfl

@[simp] theorem stops_cons : Stops p (t :: ts) ↔ p t.kind = false := by simp [Stops]

theorem Starts.any (h : Starts p ts) : (ts.head?.map Token.kind).any p = true := h

theorem Stops.any (h : Stops p ts) : ¬((ts.head?.map Token.kind).any p = true) := by
  simpa [Stops] using h

theorem Starts.append (h : Starts p ts) (us : List Token) : Starts p (ts ++ us) := by
  cases ts with
  | nil => cases h
  | cons t ts => exact h

theorem Starts.length_pos (h : Starts p ts) : 0 < ts.length := by
  cases ts with
  | nil => cases h
  | cons t ts => simp

theorem Starts.ahead (h : Starts p ts) : Ahead p ts := by
  cases ts with
  | nil => cases h
  | cons t ts => simpa using h

theorem Ahead.mono (h : Ahead p ts) (sub : ∀ k, p k = true → q k = true) : Ahead q ts := by
  cases ts with
  | nil => rfl
  | cons t ts => simpa using sub _ (ahead_cons.mp h)

theorem Ahead.stops (h : Ahead p ts) (apart : ∀ k, p k = true → q k = false) : Stops q ts := by
  cases ts with
  | nil => rfl
  | cons t ts => simpa using apart _ (ahead_cons.mp h)

theorem Stops.mono (h : Stops p ts) (sub : ∀ k, q k = true → p k = true) : Stops q ts := by
  cases ts with
  | nil => rfl
  | cons t ts =>
    have here := stops_cons.mp h
    rw [stops_cons, Bool.eq_false_iff]
    intro yes
    rw [sub _ yes] at here
    cases here

/-- A kind that the next token is not of. -/
theorem Stops.peek_ne (h : Stops p ts) {k : Kind} (yes : p k = true) :
    ¬((ts.head?.map Token.kind == some k) = true) := by
  cases ts with
  | nil => simp
  | cons t ts =>
    have here := stops_cons.mp h
    simp only [List.head?_cons, Option.map_some, Option.some_beq_some, beq_iff_eq]
    rintro rfl
    rw [yes] at here
    cases here

theorem Starts.mono (h : Starts p ts) (sub : ∀ k, p k = true → q k = true) : Starts q ts := by
  cases ts with
  | nil => cases h
  | cons t ts => simpa using sub _ (starts_cons.mp h)

theorem Starts.stops (h : Starts p ts) (apart : ∀ k, p k = true → q k = false) : Stops q ts :=
  h.ahead.stops apart

theorem length_le_flatMap {α : Type} (yield : α → List Token) {a : α} {as : List α}
    (h : a ∈ as) : (yield a).length ≤ (as.flatMap yield).length := by
  induction h with
  | head as => simp
  | tail b _ ih =>
    rw [List.flatMap_cons, List.length_append]
    omega

theorem Starts.peek_ne (h : Starts p ts) {k : Kind} (no : p k = false) :
    ¬((ts.head?.map Token.kind == some k) = true) := by
  cases ts with
  | nil => simp
  | cons t ts =>
    have here := starts_cons.mp h
    simp only [List.head?_cons, Option.map_some, Option.some_beq_some, beq_iff_eq]
    rintro rfl
    rw [no] at here
    cases here

end

/-! ## Combinators -/

/-- Something holds of each of several phrases and what is behind it. -/
def Each {α : Type} (yield : α → List Token) (holds : α → List Token → Prop) :
    List α → List Token → Prop
  | [], _ => True
  | a :: as, behind => holds a (as.flatMap yield ++ behind) ∧ Each yield holds as behind

section
variable {α : Type} {yield : α → List Token} {holds holds' : α → List Token → Prop}
  {as : List α} {behind : List Token}

theorem Each.imp (h : Each yield holds as behind)
    (sub : ∀ a ∈ as, ∀ ts, holds a ts → holds' a ts) : Each yield holds' as behind := by
  induction as with
  | nil => trivial
  | cons a as ih => exact ⟨sub a (by simp) _ h.1, ih h.2 fun b hb => sub b (by simp [hb])⟩

theorem Each.and (h : Each yield holds as behind) (h' : Each yield holds' as behind) :
    Each yield (fun a ts => holds a ts ∧ holds' a ts) as behind := by
  induction as with
  | nil => trivial
  | cons a as ih => exact ⟨⟨h.1, h'.1⟩, ih h.2 h'.2⟩

theorem each_of_forall (h : ∀ a ∈ as, ∀ ts, holds a ts) : Each yield holds as behind := by
  induction as with
  | nil => trivial
  | cons a as ih => exact ⟨h a (by simp) _, ih fun b hb => h b (by simp [hb])⟩

/-- What holds in front of each phrase and of what is behind all, holds behind each phrase. -/
theorem each_of_front {starts : Kind → Bool} {fits : List Token → Prop}
    (front : ∀ a ∈ as, Starts starts (yield a)) (next : ∀ ts, Starts starts ts → fits ts)
    (last : fits behind) : Each yield (fun _ ts => fits ts) as behind := by
  induction as with
  | nil => trivial
  | cons a as ih =>
    refine ⟨?_, ih fun b hb => front b (by simp [hb])⟩
    cases as with
    | nil => exact last
    | cons b bs => exact next _ ((front b (by simp)).append _ |>.append _)

/-- The trees of a settled row are settled, each in front of the others. -/
theorem each_settled {tree : α → Forest} (yields : ∀ a, (tree a).tokens = yield a)
    (settled : (Forest.concat (as.map tree)).Settled behind) :
    Each yield (fun a ts => (tree a).Settled ts) as behind := by
  induction as with
  | nil => trivial
  | cons a as ih =>
    simp only [List.map_cons, Forest.concat_cons, Forest.settled_append, Forest.tokens_concat,
      List.flatMap_map, yields] at settled
    exact ⟨settled.1, ih settled.2⟩

/-- A class that neither a phrase that may be missing nor what is behind it starts with. -/
theorem stops_option {p q : Kind → Bool} {o : Option α}
    (front : ∀ a, o = some a → Starts p (yield a)) (apart : ∀ k, p k = true → q k = false)
    (stop : Stops q behind) :
    Stops q (optionTokens yield o ++ behind) := by
  cases o with
  | none => exact stop
  | some a => exact ((front a rfl).append behind).stops apart

end

/-- A parser comes to a value in front of the value's tokens, and stops behind them. -/
def Reads {α : Type} (p : Parser α) (yield : α → List Token) (a : α) (behind : List Token) :
    Prop :=
  p (yield a ++ behind) = .done a behind

namespace Reads

variable {α : Type} {p : Parser α} {yield : α → List Token} {starts : Kind → Bool}
  {behind : List Token}

theorem optional {o : Option α} (reads : ∀ a, o = some a → Reads p yield a behind)
    (front : ∀ a, o = some a → Starts starts (yield a)) (stop : o = none → Stops starts behind) :
    Reads (Parser.optional starts p) (optionTokens yield) o behind := by
  unfold Reads Parser.optional
  rw [Parser.peek_bind]
  cases o with
  | none =>
    have off := (stop rfl).any
    rw [optionTokens, List.nil_append, if_neg off]
    rfl
  | some a =>
    have on := ((front a rfl).append behind).any
    rw [optionTokens, if_pos on]
    exact Parser.map_done (reads a rfl) _

theorem many {as : List α} {fuel : Nat} (enough : (as.flatMap yield).length ≤ fuel)
    (reads : Each yield (Reads p yield) as behind) (front : ∀ a ∈ as, Starts starts (yield a))
    (stop : Stops starts behind) :
    Reads (Parser.many starts p fuel) (List.flatMap yield) as behind := by
  induction as generalizing fuel with
  | nil =>
    cases fuel with
    | zero => rfl
    | succ fuel =>
      simp only [Reads, Parser.many, List.flatMap_nil, List.nil_append, Parser.peek_bind]
      rw [if_neg stop.any]
      rfl
  | cons a as ih =>
    have some := (front a (by simp)).length_pos
    rw [List.flatMap_cons, List.length_append] at enough
    obtain ⟨fuel, rfl⟩ : ∃ n, fuel = n + 1 := ⟨fuel - 1, by omega⟩
    have on := ((front a (by simp)).append (as.flatMap yield ++ behind)).any
    have others : Reads (Parser.many starts p fuel) (List.flatMap yield) as behind :=
      ih (by omega) reads.2 fun b hb => front b (by simp [hb])
    simp only [Reads, Parser.many, List.flatMap_cons, List.append_assoc, Parser.peek_bind]
    rw [if_pos on, Parser.bind_done reads.1, Parser.bind_done others]
    rfl

/-- Phrases with commas between them.  Each is read in front of a comma, and the last one in
front of what is behind all. -/
theorem listed {l : Listed α} {fuel : Nat} (enough : (l.tokens yield).length ≤ fuel)
    {tree : α → Forest} (yields : ∀ a, (tree a).tokens = yield a)
    (settled : (l.forest tree).Settled behind) {F : List Token → Prop}
    (each : ∀ a ∈ l.toList, ∀ ts, F ts → (tree a).Settled ts → Reads p yield a ts)
    (next : ∀ ts, Starts (· == .comma) ts → F ts) (last : F behind)
    (stop : Stops (· == .comma) behind) :
    Reads (Parser.listed p fuel) (Listed.tokens yield) l behind := by
  obtain ⟨first, others⟩ := l
  simp only [Listed.tokens, List.length_append] at enough
  obtain ⟨settledFirst, settledOthers⟩ := (Forest.settled_append ..).mp settled
  have front (x : Tok .comma × α) (_ : x ∈ others) :
      Starts (· == .comma) (x.1.val :: yield x.2) := x.1.property
  have readsOthers : Each (fun (x : Tok .comma × α) => x.1.val :: yield x.2)
      (Reads (do let comma ← Parser.token .comma; let a ← p; pure (comma, a))
        fun x => x.1.val :: yield x.2) others behind := by
    have fit : Each _ (fun _ ts => F ts) others behind := each_of_front front next last
    have settles : Each (fun (x : Tok .comma × α) => x.1.val :: yield x.2)
        (fun x ts => (Forest.ofToken x.1.val ++ tree x.2).Settled ts) others behind :=
      each_settled (fun x => by simp [yields]) settledOthers
    refine (fit.and settles).imp fun x mem ts both => ?_
    have inner := each x.2 (.tail _ (List.mem_map.mpr ⟨x, mem, rfl⟩)) ts both.1 both.2
    exact (Parser.bind_done (Parser.token_cons x.1 _) _).trans (Parser.bind_done inner _)
  have here : F (others.flatMap (fun x => x.1.val :: yield x.2) ++ behind) := by
    cases others with
    | nil => exact last
    | cons x xs => exact next _ x.1.property
  have tokens : (Forest.concat (others.map fun x => .ofToken x.1.val ++ tree x.2)).tokens =
      others.flatMap fun x => x.1.val :: yield x.2 := by
    simp [List.flatMap_map, yields]
  rw [tokens] at settledFirst
  have readsFirst := each first (.head _) _ here settledFirst
  have readsAll : Reads (Parser.many (· == .comma) _ fuel) (List.flatMap _) others behind :=
    many (by omega) readsOthers front stop
  simp only [Reads, Parser.listed, Listed.tokens, List.append_assoc]
  rw [Parser.bind_done readsFirst, Parser.bind_done readsAll]
  rfl

/-- The words of a class, as many as there are. -/
theorem words {q : Kind → Bool} {ws : List (Word q)} {fuel : Nat} (enough : ws.length ≤ fuel)
    (stop : Stops q behind) :
    Reads (Parser.many q (Parser.word q) fuel) (List.map Subtype.val) ws behind := by
  have yields : ws.map Subtype.val = ws.flatMap fun w => [w.val] := List.map_eq_flatMap
  have front (w) (_ : w ∈ ws) : Starts q [w.val] := w.property
  rw [Reads, yields]
  exact many (by rwa [← yields, List.length_map])
    (each_of_forall fun w _ ts => Parser.word_cons w ts) front stop

end Reads

/-! ## Groups and atoms -/

/-- A closing bracket. -/
def isClosing (k : Kind) : Bool := k.isBracket && (Bracket.ofOpener? k).isNone

namespace Bracket

theorem isBracket_opener (b : Bracket) : b.opener.isBracket = true := by
  cases b <;> rfl

theorem isClosing_closer (b : Bracket) : isClosing b.closer = true := by
  cases b <;> rfl

end Bracket

theorem Run.reads (r : Run) {fuel : Nat} {behind : List Token} (enough : r.tokens.length < fuel)
    (stop : Ahead isClosing behind) : Reads (Run.parse fuel) Run.tokens r behind := by
  induction r generalizing fuel behind with
  | nil =>
    obtain ⟨fuel, rfl⟩ : ∃ n, fuel = n + 1 := ⟨fuel - 1, by simp [tokens] at enough; omega⟩
    cases behind with
    | nil => rfl
    | cons t ts =>
      have closing := ahead_cons.mp stop
      simp only [isClosing, Bool.and_eq_true, Option.isNone_iff_eq_none] at closing
      simp only [Reads, parse, tokens, List.nil_append, Parser.peek_bind, List.head?_cons,
        Option.map_some, closing.1, closing.2, if_true]
      rfl
  | word t rest ih =>
    obtain ⟨fuel, rfl⟩ : ∃ n, fuel = n + 1 := ⟨fuel - 1, by simp [tokens] at enough; omega⟩
    have plain : t.val.kind.isBracket = false := by simpa using t.property
    have others := ih (by simpa [tokens] using enough) stop
    simp only [Reads, parse, tokens, List.cons_append, Parser.peek_bind, List.head?_cons,
      Option.map_some, plain]
    exact (Parser.bind_done (Parser.word_cons t _) _).trans (Parser.bind_done others _)
  | group b opening body closing rest ihBody ihRest =>
    obtain ⟨fuel, rfl⟩ : ∃ n, fuel = n + 1 := ⟨fuel - 1, by simp [tokens] at enough; omega⟩
    simp only [tokens, List.cons_append, List.length_cons, List.length_append] at enough
    have inner : Reads (parse fuel) tokens body (closing.val :: (rest.tokens ++ behind)) :=
      ihBody (by omega) (by simp [closing.kind_eq, b.isClosing_closer])
    have others : Reads (parse fuel) tokens rest behind := ihRest (by omega) stop
    simp only [Reads, parse, tokens, List.cons_append, List.append_assoc, Parser.peek_bind,
      List.head?_cons, Option.map_some, opening.kind_eq, b.isBracket_opener, if_true,
      Bracket.ofOpener?_opener]
    rw [Parser.bind_done (Parser.token_cons opening _), Parser.bind_done inner,
      Parser.bind_done (Parser.token_cons closing _), Parser.bind_done others]
    rfl

theorem Group.reads {b : Bracket} (g : Group b) {fuel : Nat} {behind : List Token}
    (enough : g.tokens.length ≤ fuel) : Reads (Group.parse b fuel) Group.tokens g behind := by
  simp only [tokens, List.cons_append, List.length_cons, List.length_append] at enough
  have inner : Reads (Run.parse fuel) Run.tokens g.body (g.closing.val :: behind) :=
    g.body.reads (by omega) (by simp [g.closing.kind_eq, b.isClosing_closer])
  simp only [Reads, parse, tokens, List.cons_append, List.append_assoc, List.nil_append]
  rw [Parser.bind_done (Parser.token_cons g.opening _), Parser.bind_done inner,
    Parser.bind_done (Parser.token_cons g.closing _)]
  rfl

theorem Group.starts {b : Bracket} (g : Group b) : Starts (· == b.opener) g.tokens :=
  g.opening.property

/-- A group that may be missing. -/
theorem Group.reads? {b : Bracket} {o : Option (Group b)} {fuel : Nat} {behind : List Token}
    (enough : (optionTokens Group.tokens o).length ≤ fuel)
    (stop : Stops (· == b.opener) behind) :
    Reads (Group.parse? b fuel) (optionTokens Group.tokens) o behind := by
  refine .optional ?_ (fun g _ => g.starts) fun _ => stop
  rintro g rfl
  exact g.reads enough

namespace Atom

variable {words : Kind → Bool} {brackets : Bracket → Bool}

theorem starts_tokens (a : Atom words brackets) : Starts (starts words brackets) a.tokens := by
  cases a with
  | word t => simp [tokens, starts, t.property]
  | group b admitted g => simp [tokens, Group.tokens, starts, g.opening.kind_eq, admitted]

/-- No word of a class is an opening bracket. -/
def NoOpener (words : Kind → Bool) : Prop :=
  ∀ k, words k = true → Bracket.ofOpener? k = none

theorem reads (plain : NoOpener words) (a : Atom words brackets) {fuel : Nat}
    {behind : List Token} (enough : a.tokens.length ≤ fuel) :
    Reads (parse words brackets fuel) tokens a behind := by
  simp only [Reads, parse, Parser.peek_bind]
  cases a with
  | word t =>
    simp only [tokens, List.cons_append, List.nil_append, List.head?_cons, Option.map_some,
      Option.bind_some, plain _ t.property]
    exact Parser.map_done (Parser.word_cons t _) _
  | group b admitted g =>
    have inner : Reads (Group.parse b fuel) Group.tokens g behind := g.reads enough
    have front : (((g.tokens ++ behind).head?.map Token.kind).bind Bracket.ofOpener?) = some b := by
      simp [Group.tokens, g.opening.kind_eq]
    simp only [tokens, front, admitted, dite_true]
    exact Parser.map_done inner _

theorem reads_many (plain : NoOpener words) (as : List (Atom words brackets)) {fuel : Nat}
    {behind : List Token} (enough : (as.flatMap tokens).length ≤ fuel)
    (stop : Stops (starts words brackets) behind) :
    Reads (parseMany words brackets fuel) (List.flatMap tokens) as behind := by
  have front (a) (_ : a ∈ as) : Starts (starts words brackets) a.tokens := a.starts_tokens
  exact .many enough (each_of_forall fun a mem ts =>
    a.reads plain (Nat.le_trans (length_le_flatMap tokens mem) enough)) front stop

end Atom

theorem noOpener_signature : Atom.NoOpener Kind.isSignatureWord := by
  unfold Atom.NoOpener
  decide

theorem noOpener_header : Atom.NoOpener Kind.isHeaderWord := by
  unfold Atom.NoOpener
  decide

theorem noOpener_expression : Atom.NoOpener Kind.isExpressionWord := by
  unfold Atom.NoOpener
  decide

/-! ## Expressions -/

namespace ExpressionAtom

theorem starts_tokens (a : ExpressionAtom) : Starts starts a.tokens := by
  cases a with
  | plain a => exact a.starts_tokens
  | member dot name => simp [tokens, starts, Atom.starts, dot.kind_eq, Kind.isExpressionWord]

theorem reads (a : ExpressionAtom) {fuel : Nat} {behind : List Token}
    (enough : a.tokens.length ≤ fuel) (settled : a.tree.Settled behind) :
    Reads (parse fuel) tokens a behind := by
  rw [settled_tree] at settled
  simp only [Reads, parse, Parser.peek_bind, Parser.peekSecond_bind]
  cases a with
  | plain a =>
    have inner : Reads (Atom.parse Kind.isExpressionWord Bracket.isPlain fuel) Atom.tokens a
        behind := a.reads noOpener_expression enough
    rw [if_neg ?_]
    · exact Parser.map_done inner _
    cases a with
    | word t =>
      simp [tokens, Atom.tokens, isBareDot] at settled ⊢
      exact settled
    | group b admitted g =>
      have open_ : g.opening.val.kind ≠ .dot := by
        rw [g.opening.kind_eq]
        cases b <;> decide
      simp [tokens, Atom.tokens, Group.tokens, open_]
  | member dot name =>
    simp only [tokens, List.cons_append, List.nil_append, List.head?_cons, List.tail_cons,
      Option.map_some, dot.kind_eq, Option.any_some, name.property]
    rw [if_pos (by decide), Parser.bind_done (Parser.token_cons dot _),
      Parser.bind_done (Parser.word_cons name _)]
    rfl

/-- The atoms of an expression are read one by one. -/
theorem reads_each {as : List ExpressionAtom} {fuel : Nat} {behind : List Token}
    (enough : (as.flatMap tokens).length ≤ fuel)
    (settled : (Forest.concat (as.map tree)).Settled behind) :
    Each tokens (Reads (parse fuel) tokens) as behind :=
  (each_settled tokens_tree settled).imp fun a mem _ settled =>
    a.reads (Nat.le_trans (length_le_flatMap tokens mem) enough) settled

end ExpressionAtom

theorem Expression.reads (e : Expression) {fuel : Nat} {behind : List Token}
    (enough : e.tokens.length ≤ fuel) (settled : e.forest.Settled behind)
    (stop : Stops ExpressionAtom.starts behind) :
    Reads (Expression.parse fuel) Expression.tokens e behind := by
  have each : Each ExpressionAtom.tokens (Reads (ExpressionAtom.parse fuel) ExpressionAtom.tokens)
      (e.first :: e.others) behind :=
    ExpressionAtom.reads_each (by simpa [tokens] using enough) settled
  rw [tokens, List.length_append] at enough
  have others : Reads (Parser.many ExpressionAtom.starts (ExpressionAtom.parse fuel) fuel)
      (List.flatMap ExpressionAtom.tokens) e.others behind :=
    .many (by omega) each.2 (fun a _ => a.starts_tokens) stop
  simp only [Reads, parse, tokens, List.append_assoc]
  rw [Parser.bind_done each.1, Parser.bind_done others]
  rfl

/-- The kinds that go on with an initializer, or open one. -/
def extendsInitializer (k : Kind) : Bool := k == .equal || ExpressionAtom.starts k

/-- The tree of an initializer that may be missing, below a rule of its own. -/
abbrev initializerForest (r : Rule) : Option Initializer → Forest :=
  optionForest fun i => .under r i.forest

theorem Initializer.reads? {o : Option Initializer} {fuel : Nat} {behind : List Token} {r : Rule}
    (h : r ≠ .exprAtom) (enough : (optionTokens Initializer.tokens o).length ≤ fuel)
    (settled : (initializerForest r o).Settled behind)
    (stop : Stops extendsInitializer behind) :
    Reads (Initializer.parse? fuel) (optionTokens Initializer.tokens) o behind := by
  refine .optional ?_ (fun i _ => i.equal.property) fun _ => stop.mono (by decide)
  rintro i rfl
  simp only [optionTokens, tokens, List.length_cons] at enough
  simp only [initializerForest, optionForest, Forest.settled_under h, forest,
    Forest.settled_append] at settled
  have value : Reads (Expression.parse fuel) Expression.tokens i.value behind :=
    i.value.reads (by omega)
    ((Forest.settled_under (by decide) ..).mp settled.2)
    (stop.mono (by decide))
  simp only [Reads, tokens, List.cons_append]
  rw [Parser.bind_done (Parser.token_cons i.equal _), Parser.bind_done value]
  rfl

end Conformance.Grammar
