import Conformance.Proofs.Grammar.ItemDerivation

/-!
# What is read is what was written

A parser that comes to a phrase has read the tokens of the phrase and nothing
else, and every dot in the phrase has taken its member word along.  `Sound` says
so of one parser.  Each combinator keeps it, so it is proved along the definitions
of the parsers; only types, runs and rows need an induction, on the fuel.
-/

namespace Conformance.Grammar

/-! ## Sound parsers -/

/-- A settled forest over the tokens from one place to another. -/
structure Forest.Spans (f : Forest) (ts rest : List Token) : Prop where
  /-- The tokens in between are those of the forest. -/
  eq : ts = f.tokens ++ rest
  /-- Every dot has taken its member word along. -/
  settled : f.Settled rest

namespace Forest.Spans

variable {f g : Forest} {ts mid rest : List Token}

theorem nil : Spans .nil ts ts := ⟨rfl, trivial⟩

theorem append (first : Spans f ts mid) (second : Spans g mid rest) : Spans (f ++ g) ts rest := by
  obtain ⟨rfl, settledFirst⟩ := first
  obtain ⟨rfl, settledSecond⟩ := second
  exact ⟨by simp, (settled_append ..).mpr ⟨settledFirst, settledSecond⟩⟩

theorem under (spans : Spans f ts rest) {r : Rule} (h : r ≠ .exprAtom) :
    Spans (.under r f) ts rest :=
  ⟨by simpa using spans.eq, (settled_under h ..).mpr spans.settled⟩

theorem node (below : Spans f ts mid) (behind : Spans g mid rest) {r : Rule}
    (h : r ≠ .exprAtom) : Spans (.node r f g) ts rest :=
  (below.under h).append behind

theorem word {q : Kind → Bool} {w : Word q} (read : Parser.word q ts = .done w rest) :
    Spans (.ofToken w.val) ts rest :=
  ⟨Parser.word_eq_done.mp read, trivial⟩

theorem token {k : Kind} {w : Tok k} (read : Parser.token k ts = .done w rest) :
    Spans (.ofToken w.val) ts rest :=
  word read

end Forest.Spans

/-- The forest of what is read spans the tokens that are read. -/
def Sound {α : Type} (forest : α → Forest) (p : Parser α) : Prop :=
  ∀ ts a rest, p ts = .done a rest → (forest a).Spans ts rest

namespace Sound

variable {α : Type} {forest : α → Forest} {p : Parser α} {ts rest : List Token}

theorem word {q : Kind → Bool} : Sound (fun w => .ofToken w.val) (Parser.word q) :=
  fun _ _ _ read => .word read

/-- The same forest below a rule, which is not that of an atom of an expression. -/
theorem under (sound : Sound forest p) {r : Rule} (h : r ≠ .exprAtom) :
    Sound (fun a => .under r (forest a)) p :=
  fun ts a rest read => (sound ts a rest read).under h

theorem optional {starts : Kind → Bool} (sound : Sound forest p) :
    Sound (optionForest forest) (Parser.optional starts p) := by
  intro ts o rest h
  simp only [Parser.optional, Parser.peek_bind] at h
  split at h
  · obtain ⟨a, read, rfl⟩ := Parser.map_eq_done.mp h
    exact sound ts a rest read
  · cases h
    exact .nil

theorem many {starts : Kind → Bool} (sound : Sound forest p) (fuel : Nat) :
    Sound (fun as => .concat (as.map forest)) (Parser.many starts p fuel) := by
  intro ts as rest h
  induction fuel generalizing ts as with
  | zero =>
    cases h
    exact .nil
  | succ fuel ih =>
    simp only [Parser.many, Parser.peek_bind] at h
    split at h
    · obtain ⟨a, mid, first, h⟩ := Parser.bind_eq_done.mp h
      obtain ⟨more, last, others, h⟩ := Parser.bind_eq_done.mp h
      cases h
      exact (sound ts a mid first).append (ih mid more others)
    · cases h
      exact .nil

theorem listed (sound : Sound forest p) (fuel : Nat) :
    Sound (Listed.forest forest) (Parser.listed p fuel) := by
  intro ts l rest h
  obtain ⟨first, mid, readFirst, h⟩ := Parser.bind_eq_done.mp h
  obtain ⟨others, last, readOthers, h⟩ := Parser.bind_eq_done.mp h
  cases h
  have behindComma : Sound (fun (x : Tok .comma × α) => .ofToken x.1.val ++ forest x.2)
      (do let comma ← Parser.token .comma; let a ← p; pure (comma, a)) := by
    intro ts x rest h
    obtain ⟨comma, mid, readComma, h⟩ := Parser.bind_eq_done.mp h
    obtain ⟨a, last, read, h⟩ := Parser.bind_eq_done.mp h
    cases h
    exact .append (.token readComma) (sound _ _ _ read)
  exact (sound _ _ _ readFirst).append (behindComma.many fuel _ _ _ readOthers)

end Sound

/-! ## Groups and atoms -/

theorem Run.sound (fuel : Nat) : Sound Run.forest (Run.parse fuel) := by
  induction fuel with
  | zero => intro ts r rest h; cases h
  | succ fuel ih =>
    intro ts r rest h
    simp only [Run.parse, Parser.peek_bind] at h
    cases front : ts.head?.map Token.kind with
    | none =>
      simp only [front] at h
      cases h
      exact .nil
    | some k =>
      simp only [front] at h
      split at h
      · cases opens : Bracket.ofOpener? k with
        | none =>
          simp only [opens] at h
          cases h
          exact .nil
        | some b =>
          simp only [opens] at h
          obtain ⟨opening, mid₁, h₁, h⟩ := Parser.bind_eq_done.mp h
          obtain ⟨body, mid₂, h₂, h⟩ := Parser.bind_eq_done.mp h
          obtain ⟨closing, mid₃, h₃, h⟩ := Parser.bind_eq_done.mp h
          obtain ⟨more, mid₄, h₄, h⟩ := Parser.bind_eq_done.mp h
          cases h
          have group := Forest.Spans.append (.token h₁) (.append (ih _ _ _ h₂) (.token h₃))
          exact .node (group.under b.rule_ne_exprAtom) (ih _ _ _ h₄) (by decide)
      · obtain ⟨t, mid, h₁, h⟩ := Parser.bind_eq_done.mp h
        obtain ⟨more, last, h₂, h⟩ := Parser.bind_eq_done.mp h
        cases h
        exact .node (.under (.word h₁) (by decide)) (ih _ _ _ h₂) (by decide)

theorem Group.sound (b : Bracket) (fuel : Nat) : Sound Group.forest (Group.parse b fuel) := by
  intro ts g rest h
  obtain ⟨opening, mid₁, h₁, h⟩ := Parser.bind_eq_done.mp h
  obtain ⟨body, mid₂, h₂, h⟩ := Parser.bind_eq_done.mp h
  obtain ⟨closing, mid₃, h₃, h⟩ := Parser.bind_eq_done.mp h
  cases h
  exact .append (.token h₁) (.append (Run.sound fuel _ _ _ h₂) (.token h₃))

namespace Atom

variable {words : Kind → Bool} {brackets : Bracket → Bool}

theorem sound (fuel : Nat) : Sound forest (parse words brackets fuel) := by
  intro ts a rest h
  simp only [parse, Parser.peek_bind] at h
  cases opens : (ts.head?.map Token.kind).bind Bracket.ofOpener? with
  | some b =>
    simp only [opens] at h
    split at h
    · obtain ⟨g, read, rfl⟩ := Parser.map_eq_done.mp h
      exact (Group.sound b fuel _ _ _ read).under b.rule_ne_exprAtom
    · cases h
  | none =>
    simp only [opens] at h
    obtain ⟨w, read, rfl⟩ := Parser.map_eq_done.mp h
    exact .word read

theorem sound_many {r : Rule} (h : r ≠ .exprAtom) (fuel : Nat) :
    Sound (fun as => .concat (as.map fun a => .under r a.forest))
      (parseMany words brackets fuel) :=
  ((sound fuel).under h).many fuel

end Atom

theorem Signature.sound (fuel : Nat) : Sound Signature.forest (Signature.parse fuel) :=
  Atom.sound_many (by decide) fuel

theorem headerAtoms_sound (fuel : Nat) :
    Sound headerForest (Atom.parseMany Kind.isHeaderWord Bracket.isRoundOrSquare fuel) :=
  Atom.sound_many (by decide) fuel

/-! ## Expressions -/

namespace ExpressionAtom

theorem sound (fuel : Nat) : Sound tree (parse fuel) := by
  intro ts a rest h
  simp only [parse, Parser.peek_bind, Parser.peekSecond_bind] at h
  split at h
  next member =>
    obtain ⟨dot, mid, h₁, h⟩ := Parser.bind_eq_done.mp h
    obtain ⟨name, last, h₂, h⟩ := Parser.bind_eq_done.mp h
    cases h
    have below := Forest.Spans.append (.token h₁)
      (.under (.word h₂) (r := .dotName) (by decide))
    exact ⟨by simpa [tree, tokens] using below.eq, (settled_tree ..).mpr (by simp [isBareDot])⟩
  next bare =>
    obtain ⟨a, read, rfl⟩ := Parser.map_eq_done.mp h
    obtain ⟨rfl, -⟩ := Atom.sound fuel _ _ _ read
    refine ⟨by simp [tree, forest], (settled_tree ..).mpr fun isDot => ?_⟩
    cases a with
    | word t =>
      have dot : t.val.kind = .dot := by simpa [isBareDot] using isDot
      simpa [Atom.forest, dot] using bare
    | group b admitted g => simp [isBareDot] at isDot

end ExpressionAtom

theorem Expression.sound (fuel : Nat) : Sound Expression.forest (Expression.parse fuel) := by
  intro ts e rest h
  obtain ⟨first, mid, h₁, h⟩ := Parser.bind_eq_done.mp h
  obtain ⟨others, last, h₂, h⟩ := Parser.bind_eq_done.mp h
  cases h
  exact (ExpressionAtom.sound fuel _ _ _ h₁).append
    ((ExpressionAtom.sound fuel).many fuel _ _ _ h₂)

theorem Initializer.sound? (fuel : Nat) {r : Rule} (h : r ≠ .exprAtom) :
    Sound (optionForest fun i => .under r (Initializer.forest i)) (Initializer.parse? fuel) := by
  refine Sound.optional (Sound.under (fun ts i rest h => ?_) h)
  obtain ⟨equal, mid, h₁, h⟩ := Parser.bind_eq_done.mp h
  obtain ⟨value, last, h₂, h⟩ := Parser.bind_eq_done.mp h
  cases h
  exact .append (.token h₁) ((Expression.sound fuel _ _ _ h₂).under (by decide))

/-! ## Types -/

namespace TypeTree

theorem sound_effects (fuel : Nat) :
    Sound effectsForest (Parser.many Kind.isEffect (Parser.word Kind.isEffect) fuel) :=
  (Sound.word.under (by decide)).many fuel

theorem sound_marks (fuel : Nat) :
    Sound marksForest (Parser.many Kind.isPostfix (Parser.word Kind.isPostfix) fuel) :=
  (Sound.word.under (by decide)).many fuel

variable {fuel : Nat}

/-- One level down, every part is read soundly. -/
abbrev SoundBelow (fuel : Nat) : Prop := ∀ p, Sound forest (parse fuel p)

theorem sound_whole (ih : SoundBelow fuel) : Sound forest (parse (fuel + 1) .whole) := by
  intro ts t rest h
  replace h := Parser.peek_bind_eq_done.mp h
  split at h
  · obtain ⟨sign, mid₁, h₁, h⟩ := Parser.bind_eq_done.mp h
    obtain ⟨name, mid₂, h₂, h⟩ := Parser.bind_eq_done.mp h
    obtain ⟨type, mid₃, h₃, h⟩ := Parser.bind_eq_done.mp h
    cases h
    exact .node (.append (.token h₁) (.token h₂)) (ih _ _ _ _ h₃) (by decide)
  · obtain ⟨unit, mid, h₁, h⟩ := Parser.bind_eq_done.mp h
    have first := (ih _ _ _ _ h₁).under (r := .typeUnit) (by decide)
    rw [Parser.peek_bind] at h
    split at h
    · obtain ⟨effects, mid₂, h₂, h⟩ := Parser.bind_eq_done.mp h
      obtain ⟨arrow, mid₃, h₃, h⟩ := Parser.bind_eq_done.mp h
      obtain ⟨result, mid₄, h₄, h⟩ := Parser.bind_eq_done.mp h
      cases h
      have others := Forest.Spans.append (sound_effects fuel _ _ _ h₂)
        (.append (.token h₃) ((ih _ _ _ _ h₄).under (r := .type) (by decide)))
      exact (first.append others).under (by decide)
    · obtain ⟨more, mid₂, h₂, h⟩ := Parser.bind_eq_done.mp h
      cases h
      exact (first.append (ih _ _ _ _ h₂)).under (by decide)

theorem sound_conjuncts (ih : SoundBelow fuel) :
    Sound forest (parse (fuel + 1) .conjuncts) := by
  intro ts t rest h
  replace h := Parser.peek_bind_eq_done.mp h
  split at h
  · obtain ⟨sign, mid₁, h₁, h⟩ := Parser.bind_eq_done.mp h
    obtain ⟨unit, mid₂, h₂, h⟩ := Parser.bind_eq_done.mp h
    obtain ⟨more, mid₃, h₃, h⟩ := Parser.bind_eq_done.mp h
    cases h
    exact .append (.append (.token h₁) ((ih _ _ _ _ h₂).under (by decide))) (ih _ _ _ _ h₃)
  · cases h
    exact .nil

theorem sound_unit (ih : SoundBelow fuel) : Sound forest (parse (fuel + 1) .unit) := by
  intro ts t rest h
  obtain ⟨primary, mid₁, h₁, h⟩ := Parser.bind_eq_done.mp h
  obtain ⟨marks, mid₂, h₂, h⟩ := Parser.bind_eq_done.mp h
  cases h
  exact ((ih _ _ _ _ h₁).under (by decide)).append (sound_marks fuel _ _ _ h₂)

theorem sound_square (ih : SoundBelow fuel) : Sound forest (parseSquare (parse fuel .whole)) := by
  intro ts t rest h
  obtain ⟨opening, mid₁, h₁, h⟩ := Parser.bind_eq_done.mp h
  obtain ⟨type, mid₂, h₂, h⟩ := Parser.bind_eq_done.mp h
  have first := (ih _ _ _ _ h₂).under (r := .type) (by decide)
  rw [Parser.peek_bind] at h
  split at h
  · obtain ⟨colon, mid₃, h₃, h⟩ := Parser.bind_eq_done.mp h
    obtain ⟨value, mid₄, h₄, h⟩ := Parser.bind_eq_done.mp h
    obtain ⟨closing, mid₅, h₅, h⟩ := Parser.bind_eq_done.mp h
    cases h
    have second := (ih _ _ _ _ h₄).under (r := .type) (by decide)
    exact .under (.append (.token h₁) (.append first (.append (.token h₃)
      (.append second (.token h₅))))) (by decide)
  · obtain ⟨closing, mid₃, h₃, h⟩ := Parser.bind_eq_done.mp h
    cases h
    exact .under (.append (.token h₁) (.append first (.token h₃))) (by decide)

theorem sound_tuple (ih : SoundBelow fuel) :
    Sound forest (parseTuple (parse fuel .elements)) := by
  intro ts t rest h
  obtain ⟨opening, mid₁, h₁, h⟩ := Parser.bind_eq_done.mp h
  obtain ⟨elements, mid₂, h₂, h⟩ := Parser.bind_eq_done.mp h
  obtain ⟨closing, mid₃, h₃, h⟩ := Parser.bind_eq_done.mp h
  cases h
  exact .under (.append (.token h₁) (.append (ih _ _ _ _ h₂) (.token h₃))) (by decide)

theorem sound_named (ih : SoundBelow fuel) :
    Sound forest (parseNamed (parse fuel .primary) (parse fuel .identifier)
      (parse fuel .path)) := by
  intro ts t rest h
  simp only [parseNamed, Parser.peekSecond_bind] at h
  split at h
  · obtain ⟨word, mid₁, h₁, h⟩ := Parser.bind_eq_done.mp h
    obtain ⟨primary, mid₂, h₂, h⟩ := Parser.bind_eq_done.mp h
    cases h
    exact .under (.append (.token h₁) ((ih _ _ _ _ h₂).under (by decide))) (by decide)
  · obtain ⟨first, mid₁, h₁, h⟩ := Parser.bind_eq_done.mp h
    obtain ⟨path, mid₂, h₂, h⟩ := Parser.bind_eq_done.mp h
    cases h
    exact .under (.append ((ih _ _ _ _ h₁).under (by decide)) (ih _ _ _ _ h₂)) (by decide)

theorem sound_primary (ih : SoundBelow fuel) : Sound forest (parse (fuel + 1) .primary) := by
  intro ts t rest h
  replace h := Parser.peek_bind_eq_done.mp h
  rcases front : ts.head?.map Token.kind with _ | k
  · simp only [front] at h
    exact sound_named ih _ _ _ h
  · simp only [front] at h
    cases k with
    | leftSquare => exact sound_square ih _ _ _ h
    | leftParen => exact sound_tuple ih _ _ _ h
    | _ => exact sound_named ih _ _ _ h

theorem sound_path (ih : SoundBelow fuel) : Sound forest (parse (fuel + 1) .path) := by
  intro ts t rest h
  replace h := Parser.peek_bind_eq_done.mp h
  split at h
  · obtain ⟨dot, mid₁, h₁, h⟩ := Parser.bind_eq_done.mp h
    obtain ⟨identifier, mid₂, h₂, h⟩ := Parser.bind_eq_done.mp h
    obtain ⟨path, mid₃, h₃, h⟩ := Parser.bind_eq_done.mp h
    cases h
    exact .append (.append (.token h₁) ((ih _ _ _ _ h₂).under (by decide))) (ih _ _ _ _ h₃)
  · cases h
    exact .nil

theorem sound_identifier (ih : SoundBelow fuel) :
    Sound forest (parse (fuel + 1) .identifier) := by
  intro ts t rest h
  obtain ⟨name, mid₁, h₁, h⟩ := Parser.bind_eq_done.mp h
  rw [Parser.peek_bind] at h
  split at h
  · obtain ⟨opening, mid₂, h₂, h⟩ := Parser.bind_eq_done.mp h
    obtain ⟨first, mid₃, h₃, h⟩ := Parser.bind_eq_done.mp h
    obtain ⟨others, mid₄, h₄, h⟩ := Parser.bind_eq_done.mp h
    obtain ⟨closing, mid₅, h₅, h⟩ := Parser.bind_eq_done.mp h
    cases h
    have types := ((ih _ _ _ _ h₃).under (r := .type) (by decide)).append (ih _ _ _ _ h₄)
    exact .append (.token h₁) (.under (.append (.token h₂) (.append types (.token h₅)))
      (by decide))
  · cases h
    exact .append (.token h₁) .nil

theorem sound_arguments (ih : SoundBelow fuel) :
    Sound forest (parse (fuel + 1) .arguments) := by
  intro ts t rest h
  replace h := Parser.peek_bind_eq_done.mp h
  split at h
  · obtain ⟨comma, mid₁, h₁, h⟩ := Parser.bind_eq_done.mp h
    obtain ⟨type, mid₂, h₂, h⟩ := Parser.bind_eq_done.mp h
    obtain ⟨others, mid₃, h₃, h⟩ := Parser.bind_eq_done.mp h
    cases h
    exact .append (.append (.token h₁) ((ih _ _ _ _ h₂).under (by decide))) (ih _ _ _ _ h₃)
  · cases h
    exact .nil

theorem sound_elements (ih : SoundBelow fuel) :
    Sound forest (parse (fuel + 1) .elements) := by
  intro ts t rest h
  replace h := Parser.peek_bind_eq_done.mp h
  split at h
  · cases h
    exact .nil
  · obtain ⟨first, mid₁, h₁, h⟩ := Parser.bind_eq_done.mp h
    obtain ⟨others, mid₂, h₂, h⟩ := Parser.bind_eq_done.mp h
    cases h
    exact .append ((ih _ _ _ _ h₁).under (by decide)) (ih _ _ _ _ h₂)

theorem sound_element (ih : SoundBelow fuel) : Sound forest (parse (fuel + 1) .element) := by
  intro ts t rest h
  simp only [parse, Parser.peek_bind, Parser.peekSecond_bind, peekThird_bind] at h
  cases form : elementForm (ts.head?.map Token.kind) (ts.tail.head?.map Token.kind)
      (ts[2]?.map Token.kind) with
  | unlabelled =>
    simp only [form] at h
    obtain ⟨type, read, rfl⟩ := Parser.map_eq_done.mp h
    exact (ih _ _ _ _ read).under (by decide)
  | labelled =>
    simp only [form] at h
    obtain ⟨label, mid₁, h₁, h⟩ := Parser.bind_eq_done.mp h
    obtain ⟨colon, mid₂, h₂, h⟩ := Parser.bind_eq_done.mp h
    obtain ⟨type, mid₃, h₃, h⟩ := Parser.bind_eq_done.mp h
    cases h
    exact .append (.under (.word h₁) (by decide))
      (.append (.token h₂) ((ih _ _ _ _ h₃).under (by decide)))
  | relabelled =>
    simp only [form] at h
    obtain ⟨outer, mid₁, h₁, h⟩ := Parser.bind_eq_done.mp h
    obtain ⟨inner, mid₂, h₂, h⟩ := Parser.bind_eq_done.mp h
    obtain ⟨colon, mid₃, h₃, h⟩ := Parser.bind_eq_done.mp h
    obtain ⟨type, mid₄, h₄, h⟩ := Parser.bind_eq_done.mp h
    cases h
    exact .append (.token h₁) (.append (.under (.word h₂) (by decide))
      (.append (.token h₃) ((ih _ _ _ _ h₄).under (by decide))))

theorem sound_moreElements (ih : SoundBelow fuel) :
    Sound forest (parse (fuel + 1) .moreElements) := by
  intro ts t rest h
  replace h := Parser.peek_bind_eq_done.mp h
  split at h
  · obtain ⟨comma, mid₁, h₁, h⟩ := Parser.bind_eq_done.mp h
    obtain ⟨element, mid₂, h₂, h⟩ := Parser.bind_eq_done.mp h
    obtain ⟨others, mid₃, h₃, h⟩ := Parser.bind_eq_done.mp h
    cases h
    exact .append (.append (.token h₁) ((ih _ _ _ _ h₂).under (by decide))) (ih _ _ _ _ h₃)
  · cases h
    exact .nil

theorem sound (fuel : Nat) (p : TypePart) : Sound forest (parse fuel p) := by
  induction fuel generalizing p with
  | zero => intro ts t rest h; cases h
  | succ fuel ih =>
    cases p with
    | whole => exact sound_whole ih
    | conjuncts => exact sound_conjuncts ih
    | unit => exact sound_unit ih
    | primary => exact sound_primary ih
    | path => exact sound_path ih
    | identifier => exact sound_identifier ih
    | arguments => exact sound_arguments ih
    | elements => exact sound_elements ih
    | element => exact sound_element ih
    | moreElements => exact sound_moreElements ih

end TypeTree

theorem TypeClause.sound (fuel : Nat) :
    Sound TypeClause.forest (do
      let colon ← Parser.token .colon
      let type ← TypeSyntax.parse fuel
      pure ⟨colon, type⟩) := by
  intro ts c rest h
  obtain ⟨colon, mid, h₁, h⟩ := Parser.bind_eq_done.mp h
  obtain ⟨type, last, h₂, h⟩ := Parser.bind_eq_done.mp h
  cases h
  exact .append (.token h₁) ((TypeTree.sound fuel _ _ _ _ h₂).under (by decide))

end Conformance.Grammar
