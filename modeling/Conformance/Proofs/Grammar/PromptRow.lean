import Conformance.Proofs.Grammar.ItemSoundness
import Conformance.Proofs.Grammar.PromptItem
import Conformance.Proofs.Grammar.Settled

/-!
# The parser of rows is prompt

What opens a row of declarations has to open a settled one.  A row that has been read is
settled in front of anything but a member word, and so in front of the brace that closes it.
Only a leaf may end in a dot, and then the token behind it is no member word, since the
parser of expressions would have taken it.

What is being declared is known by the first token behind the head, except behind the word
`class`.  That word is taken in any case.
-/

namespace Conformance.Grammar

variable {m n fuel fuel' : Nat}

/-- Some settled row begins with the tokens. -/
def OpensRow (ts : List Token) : Prop :=
  ∃ (i : Items) (more : List Token), i.tokens = ts ++ more ∧ i.forest.Settled []

theorem opensRow_nil : OpensRow [] := ⟨.nil, [], rfl, trivial⟩

theorem OpensRow.of_append {ts us : List Token} (h : OpensRow (ts ++ us)) : OpensRow ts := by
  obtain ⟨i, more, eq, settled⟩ := h
  exact ⟨i, us ++ more, by rw [eq, List.append_assoc], settled⟩

/-! ## Leaves -/

namespace Leaf

theorem prompt_form {first second : Option Kind} {parse : Nat → Head → Parser Leaf}
    (form : Form.of first second = .leaf parse) (head : Head) (enough : 8 * m ≤ fuel + 4)
    (enough' : 8 * n ≤ fuel' + 4) :
    Prompt tokens (Opens tokens) head.tokens m n (parse fuel head) (parse fuel' head) := by
  rcases form_leaf form with rfl | rfl | rfl | rfl | rfl | rfl | rfl | rfl
  · exact (Property.prompt head enough enough').map fun _ => rfl
  · exact (CaseGroup.prompt head enough enough').map fun _ => rfl
  · exact prompt_function head (by omega) (by omega)
  · exact prompt_constructor head (by omega) (by omega)
  · exact prompt_destructor head (by omega) (by omega)
  · exact prompt_subscript head (by omega) (by omega)
  · exact prompt_alias head (by omega) (by omega)
  · exact prompt_import head (by omega) (by omega)

/-- The head that a leaf is read behind is its head. -/
theorem always_form {first second : Option Kind} {parse : Nat → Head → Parser Leaf}
    (form : Form.of first second = .leaf parse) (fuel : Nat) (head : Head) :
    (parse fuel head).Always fun l => l.head? = some head := by
  rcases form_leaf form with rfl | rfl | rfl | rfl | rfl | rfl | rfl | rfl
  · exact Parser.always_map (Parser.always_bind fun _ => Parser.always_bind fun _ =>
      Parser.always_bind fun _ => Parser.always_pure rfl)
  · exact Parser.always_map (Parser.always_bind fun _ => Parser.always_bind fun _ =>
      Parser.always_pure rfl)
  · exact Parser.always_bind fun _ => Parser.always_bind fun _ => Parser.always_bind fun _ =>
      Parser.always_bind fun _ => Parser.always_bind fun _ => Parser.always_pure rfl
  · exact Parser.always_bind fun _ => Parser.always_bind fun _ => Parser.always_bind fun _ =>
      Parser.always_pure rfl
  · exact Parser.always_bind fun _ => Parser.always_bind fun _ => Parser.always_pure rfl
  · exact Parser.always_bind fun _ => Parser.always_bind fun _ => Parser.always_bind fun _ =>
      Parser.always_pure rfl
  · exact Parser.always_bind fun _ => Parser.always_bind fun _ => Parser.always_bind fun _ =>
      Parser.always_pure rfl
  · exact Parser.always_bind fun _ => Parser.always_bind fun _ => Parser.always_bind fun _ =>
      Parser.always_bind fun _ => Parser.always_pure rfl

/-- A leaf that is settled in front of a row is the front of a settled row. -/
theorem settled_row {l : Leaf} {i : Items} (settled : l.forest.Settled i.tokens)
    (others : i.forest.Settled []) : (Items.leaf l i).forest.Settled [] :=
  Items.settled_leaf_iff.mpr ⟨by rwa [List.append_nil], others⟩

theorem opensRow {ts : List Token} (h : Opens tokens ts) : OpensRow ts := by
  obtain ⟨l, more, eq⟩ := h
  refine ⟨.leaf l .nil, more, by simpa [Items.tokens] using eq, ?_⟩
  exact settled_row (l.settled_forest stops_nil) trivial

/-- A leaf in front of what opens a row, as it has been read. -/
theorem opensRow_append {l : Leaf} {read rest : List Token} (settled : l.forest.Settled (read ++ rest))
    (h : OpensRow read) : OpensRow (l.tokens ++ read) := by
  cases read with
  | nil => exact opensRow ⟨l, [], by simp⟩
  | cons t read =>
    obtain ⟨i, more, eq, row⟩ := h
    refine ⟨.leaf l i, more, by simp [Items.tokens, eq], settled_row (settled.behind (.inr ?_)) row⟩
    rw [eq]
    rfl

end Leaf

namespace Items

variable {row row' : Parser Items}

/-- A leaf and the row behind it, from behind the head of the leaf. -/
theorem prompt_leaf {first second : Option Kind} {parse : Nat → Head → Parser Leaf}
    (form : Form.of first second = .leaf parse) (head : Head) (enough : 8 * m ≤ fuel + 4)
    (enough' : 8 * n ≤ fuel' + 4)
    (others : Prompt tokens OpensRow [] (m - 1) (n - 1) row row') :
    Prompt tokens OpensRow head.tokens m n (do let l ← parse fuel head; let i ← row; pure (leaf l i))
      (do let l ← parse fuel' head; let i ← row'; pure (leaf l i)) := by
  have leaves := Leaf.prompt_form form head enough enough'
  have takes {front : List Token} {l : Leaf} (has : l.head? = some head)
      (eq : l.tokens = head.tokens ++ front) : 0 < front.length := by
    rw [l.tokens_eq, has] at eq
    exact List.append_cancel_left eq ▸ (Leaf.starts_body has).length_pos
  have settledBehind {ts mid : List Token} {l : Leaf} (read : parse fuel head ts = .done l mid) :
      l.forest.Settled mid := by
    have front : head.forest.Spans (head.tokens ++ ts) ts :=
      ⟨by rw [head.tokens_forest], head.derives.settled rfl ts⟩
    exact (Leaf.sound_form form fuel head _ _ _ _ front read).settled
  refine ⟨Leaf.opensRow leaves.start, ?_, ?_⟩
  · intro ts i rest bound read
    obtain ⟨l, mid, readLeaf, read⟩ := Parser.bind_eq_done.mp read
    obtain ⟨j, last, readRow, read⟩ := Parser.bind_eq_done.mp read
    cases read
    obtain ⟨front, rfl, yieldLeaf, againLeaf⟩ := leaves.done bound readLeaf
    have pos := takes (Leaf.always_form form fuel head _ _ _ readLeaf) yieldLeaf
    rw [List.length_append] at bound
    obtain ⟨front', rfl, yieldRow, againRow⟩ := others.done (by omega) readRow
    refine ⟨front ++ front', by simp, by simpa [tokens, yieldLeaf] using yieldRow, ?_⟩
    have again : Again (row' >>= fun i => pure (leaf l i)) (n - 1) front' rest
        (.done (leaf l j)) := by
      intro t r here w fits
      rw [Parser.bind_done (againRow t r here w fits)]
      rfl
    exact againLeaf.bind again (by omega)
  · intro ts rest bound read
    rw [Parser.bind_apply] at read
    cases readLeaf : parse fuel head ts with
    | stuck mid =>
      rw [readLeaf] at read
      cases read
      obtain ⟨front, rfl, opened, again⟩ := leaves.stuck bound readLeaf
      refine ⟨front, rfl, Leaf.opensRow opened, fun t r here w fits => ?_⟩
      exact Parser.bind_stuck (again t r here w fits) _
    | done l mid =>
      rw [readLeaf] at read
      obtain ⟨front, rfl, yieldLeaf, againLeaf⟩ := leaves.done bound readLeaf
      have pos := takes (Leaf.always_form form fuel head _ _ _ readLeaf) yieldLeaf
      rw [List.length_append] at bound
      have settled := settledBehind readLeaf
      change (row >>= fun i => pure (leaf l i)) mid = _ at read
      rw [Parser.bind_apply] at read
      cases readRow : row mid with
      | done j last =>
        rw [readRow] at read
        cases read
      | stuck last =>
        rw [readRow] at read
        cases read
        obtain ⟨front', rfl, opened, againRow⟩ := others.stuck (by omega) readRow
        refine ⟨front ++ front', by simp, ?_, ?_⟩
        · rw [← List.append_assoc, ← yieldLeaf]
          exact Leaf.opensRow_append settled opened
        · have again : Again (row' >>= fun i => pure (leaf l i)) (n - 1) front' rest .stuck :=
            fun t r here w fits => Parser.bind_stuck (againRow t r here w fits) _
          exact againLeaf.bind again (by omega)

/-! ## Types -/

/-- A type is settled if its members and the row behind it are. -/
theorem settled_nominal (header : Header) (opening : Tok .leftBrace) {members : Items}
    (closing : Tok .rightBrace) {rest : Items} (inner : members.forest.Settled [])
    (others : rest.forest.Settled []) :
    (nominal header opening members closing rest).forest.Settled [] := by
  have member : ∀ k : Kind, (k == .rightBrace) = true → k.isMemberWord = false := by decide
  exact settled_nominal_iff.mpr
    ⟨inner.of_stops (stops_cons.mpr (member _ closing.property)), others⟩

/-- What opens a header opens a row. -/
theorem opensRow_header {ts : List Token} (h : Opens Header.tokens ts) : OpensRow ts := by
  obtain ⟨header, more, eq⟩ := h
  let opening : Tok .leftBrace := ⟨⟨.leftBrace, "", "", .origin, .origin⟩, rfl⟩
  let closing : Tok .rightBrace := ⟨⟨.rightBrace, "", "", .origin, .origin⟩, rfl⟩
  refine ⟨nominal header opening nil closing nil, more ++ [opening.val, closing.val], ?_, ?_⟩
  · simp [tokens, eq]
  · exact settled_nominal header opening closing trivial trivial

/-- The members of a type and the row behind it, from behind the header. -/
theorem prompt_nominal (header : Header) {fuel fuel' : Nat}
    (others : Prompt tokens OpensRow [] (m - 1) (n - 1) (parse fuel) (parse fuel')) :
    Prompt tokens OpensRow header.tokens m n (parseNominal (parse fuel) header)
      (parseNominal (parse fuel') header) := by
  let brace : Tok .rightBrace := ⟨⟨.rightBrace, "", "", .origin, .origin⟩, rfl⟩
  have settled : (parse fuel).Always fun i => i.forest.Settled [] :=
    fun ts i rest read => (sound fuel _ _ _ read).settled.of_stops stops_nil
  refine .bind_of_opened (fun _ => True) (List.append_nil _) (.token .leftBrace) ?_
    (fun _ _ _ _ => trivial) fun opening one eq _ => ?_
  · rintro ts ⟨opening, more, eq⟩
    refine ⟨nominal header opening nil brace nil, more ++ [brace.val], ?_,
      settled_nominal header opening brace trivial trivial⟩
    change [opening.val] = ts ++ more at eq
    simp [tokens, ← List.append_assoc ts, ← eq]
  obtain rfl : [opening.val] = one := eq
  refine .bind_of_opened (fun i => i.forest.Settled []) (List.append_nil _) others ?_ settled
    fun members inside eq inner => ?_
  · rintro ts ⟨i, more, eq, inner⟩
    refine ⟨nominal header opening i brace nil, more ++ [brace.val], ?_,
      settled_nominal header opening brace inner trivial⟩
    simp [tokens, eq]
  refine .bind_of_opened (fun _ => True) (List.append_nil _) (.token .rightBrace) ?_
    (fun _ _ _ _ => trivial) fun closing one _ _ => ?_
  · rintro ts ⟨closing, more, eq⟩
    refine ⟨nominal header opening members closing nil, more, ?_,
      settled_nominal header opening closing inner trivial⟩
    change [closing.val] = ts ++ more at eq
    simp [tokens, ← eq]
  refine .bind_of_opened (fun i => i.forest.Settled []) (List.append_nil _)
    (others.mono ?_ ?_) ?_ settled fun rest behind eq outer => ?_
  · exact Nat.le_trans (Nat.sub_le ..) (Nat.sub_le ..)
  · exact Nat.le_trans (Nat.sub_le ..) (Nat.sub_le ..)
  · rintro ts ⟨i, more, eq, outer⟩
    refine ⟨nominal header opening members closing i, more, ?_,
      settled_nominal header opening closing inner outer⟩
    simp [tokens, eq]
  have whole : (nominal header opening members closing rest).tokens =
      header.tokens ++ [opening.val] ++ members.tokens ++ [closing.val] ++ rest.tokens := by
    simp [tokens]
  refine .pure_of_opens whole ⟨_, [], ?_, settled_nominal header opening closing inner outer⟩
  rw [whole, List.append_nil]

/-! ## Declarations -/

/-- A declaration of one form and the row behind it, from behind the head. -/
def parseForm (row : Parser Items) (fuel : Nat) (head : Head) : Form → Parser Items
  | .structured => do parseNominal row (← Header.parseStructured fuel head)
  | .loose => do parseNominal row (← Header.parseLoose fuel head)
  | .leaf parseLeaf => do
    let l ← parseLeaf fuel head
    let rest ← row
    pure (leaf l rest)
  | .impossible => Parser.stuck

/-- The kinds of the next two tokens. -/
def twoKinds (ts : List Token) : Option Kind × Option Kind :=
  (ts.head?.map Token.kind, ts.tail.head?.map Token.kind)

/-- A declaration and the row behind it, from behind the head. -/
def parseAhead (row : Parser Items) (fuel : Nat) (head : Head) : Parser Items := fun ts =>
  parseForm row fuel head (Form.of (twoKinds ts).1 (twoKinds ts).2) ts

theorem parseDeclaration_eq (row : Parser Items) (fuel : Nat) :
    parseDeclaration row fuel = Head.parse fuel >>= parseAhead row fuel := by
  refine congrArg (Head.parse fuel >>= ·) (funext fun head => funext fun ts => ?_)
  rw [Parser.peek_bind, Parser.peekSecond_bind, parseAhead, twoKinds]
  cases Form.of (ts.head?.map Token.kind) (ts.tail.head?.map Token.kind) <;> rfl

/-- What opens a head opens a row. -/
theorem opensRow_head {ts : List Token} (h : Opens Head.tokens ts) : OpensRow ts := by
  obtain ⟨head, more, eq⟩ := h
  have form : Form.of (some .importKw) none = .leaf Leaf.parseImport := rfl
  have prompt : Prompt Leaf.tokens (Opens Leaf.tokens) head.tokens 0 0 (Leaf.parseImport 0 head)
      (Leaf.parseImport 0 head) := Leaf.prompt_form form head (by decide) (by decide)
  have opened := Leaf.opensRow prompt.start
  rw [eq] at opened
  exact opened.of_append

/-- Only behind the word for a class does the second kind count. -/
theorem form_of_ne {k : Kind} (other : k ≠ .classKw) (a b : Option Kind) :
    Form.of (some k) a = Form.of (some k) b := by
  cases k <;> first | rfl | contradiction

theorem form_of_class (second : Option Kind) :
    Form.of (some .classKw) second = .structured ∨
      Form.of (some .classKw) second = .leaf (fun n h => Leaf.property <$> Property.parse n h) ∨
      Form.of (some .classKw) second = .leaf Leaf.parseFunction := by
  cases second with
  | none => exact .inl rfl
  | some k => cases k <;> simp [Form.of]

/-- The word for a class is taken in any form. -/
theorem rest_parseForm {t : Token} (word : t.kind = .classKw) (second : Option Kind)
    (row : Parser Items) (fuel : Nat) (head : Head) :
    (parseForm row fuel head (Form.of (some t.kind) second) [t]).rest = [] := by
  have optional : Parser.optional (· == .classKw) (Parser.token .classKw) [t] =
      .done (some ⟨t, beq_iff_eq.mpr word⟩) [] := by
    simp only [Parser.optional, Parser.peek_bind, List.head?_cons, Option.map_some, word]
    exact Parser.map_done (Parser.token_cons ⟨t, beq_iff_eq.mpr word⟩ []) some
  rw [word]
  rcases form_of_class second with form | form | form
  · rw [form]
    have read : Header.parseStructured fuel head [t] = .stuck [] :=
      Parser.bind_done (Parser.word_cons ⟨t, by rw [word]; rfl⟩ []) _
    exact congrArg Reading.rest (Parser.bind_stuck read _)
  · rw [form]
    have read : Property.parse fuel head [t] = .stuck [] := Parser.bind_done optional _
    have leaf := Parser.bind_stuck read fun p => pure (Leaf.property p)
    exact congrArg Reading.rest (Parser.bind_stuck leaf _)
  · rw [form]
    have read : Leaf.parseFunction fuel head [t] = .stuck [] := Parser.bind_done optional _
    exact congrArg Reading.rest (Parser.bind_stuck read _)

theorem prompt_ahead (head : Head) (enough : 8 * m ≤ fuel + 4) (enough' : 8 * n ≤ fuel' + 4)
    (others : Prompt tokens OpensRow [] (m - 1) (n - 1) (parse fuel) (parse fuel')) :
    Prompt tokens OpensRow head.tokens m n (parseAhead (parse fuel) fuel head)
      (parseAhead (parse fuel') fuel' head) := by
  have opened : ∀ ts, Opens Header.tokens ts → OpensRow ([] ++ ts) := fun _ => opensRow_header
  have each (kinds : Option Kind × Option Kind) :
      Prompt tokens OpensRow head.tokens m n
        (parseForm (parse fuel) fuel head (Form.of kinds.1 kinds.2))
        (parseForm (parse fuel') fuel' head (Form.of kinds.1 kinds.2)) := by
    cases form : Form.of kinds.1 kinds.2 with
    | structured =>
      have header : Prompt Header.tokens (Opens Header.tokens) head.tokens m n
          (Header.parseStructured fuel head) (Header.parseStructured fuel' head) :=
        Header.prompt_structured head (by omega) (by omega)
      refine .bind_of_opened (fun _ => True) (List.nil_append _) header opened
        (fun _ _ _ _ => trivial) fun header read _ _ => ?_
      exact prompt_nominal header (others.mono (by omega) (by omega))
    | loose =>
      have header : Prompt Header.tokens (Opens Header.tokens) head.tokens m n
          (Header.parseLoose fuel head) (Header.parseLoose fuel' head) :=
        Header.prompt_loose head (by omega) (by omega)
      refine .bind_of_opened (fun _ => True) (List.nil_append _) header opened
        (fun _ _ _ _ => trivial) fun header read _ _ => ?_
      exact prompt_nominal header (others.mono (by omega) (by omega))
    | leaf parseLeaf => exact prompt_leaf form head enough enough' others
    | impossible => exact .stuck_self (opensRow_head ⟨head, [], by simp⟩)
  refine .lookTwice Prod.mk each fun t w _ => ?_
  by_cases word : t.kind = .classKw
  · exact .inr fun _ => rest_parseForm word _ _ _ _
  · exact .inl fun a b => congrArg (fun form => parseForm (parse fuel') fuel' head form (t :: w))
      (form_of_ne word a b)

theorem prompt_declaration (enough : 8 * m ≤ fuel + 4) (enough' : 8 * n ≤ fuel' + 4)
    (others : Prompt tokens OpensRow [] (m - 1) (n - 1) (parse fuel) (parse fuel')) :
    Prompt tokens OpensRow [] m n (parseDeclaration (parse fuel) fuel)
      (parseDeclaration (parse fuel') fuel') := by
  rw [parseDeclaration_eq, parseDeclaration_eq]
  have heads : IsPrompt Head.tokens m n (Head.parse fuel) (Head.parse fuel') :=
    Head.prompt (by omega) (by omega)
  refine .bind_of_opened (fun _ => True) (List.nil_append _) heads (fun _ => opensRow_head)
    (fun _ _ _ _ => trivial) fun head read _ _ => ?_
  exact prompt_ahead head (by omega) (by omega) (others.mono (by omega) (by omega))

/-! ## Rows -/

/-- A row behind one token, where the token alone is a part of a row. -/
theorem prompt_behind {k : Kind} {item : Tok k → Items → Items} {fuel fuel' : Nat}
    (yields : ∀ w i, (item w i).tokens = w.val :: i.tokens)
    (keeps : ∀ w i, i.forest.Settled [] → (item w i).forest.Settled [])
    (others : Prompt tokens OpensRow [] (m - 1) (n - 1) (parse fuel) (parse fuel')) :
    Prompt tokens OpensRow [] m n
      (do let w ← Parser.token k; let i ← parse fuel; pure (item w i))
      (do let w ← Parser.token k; let i ← parse fuel'; pure (item w i)) := by
  have settled : (parse fuel).Always fun i => i.forest.Settled [] :=
    fun ts i rest read => (sound fuel _ _ _ read).settled.of_stops stops_nil
  refine .bind_of_opened (fun _ => True) (List.append_nil []) (.token k) ?_
    (fun _ _ _ _ => trivial) fun w one eq _ => ?_
  · rintro ts ⟨w, more, eq⟩
    exact ⟨item w nil, more, (yields w nil).trans eq, keeps w nil trivial⟩
  obtain rfl : [w.val] = one := eq
  refine .bind_of_opened (fun i => i.forest.Settled []) (List.append_nil _) others ?_ settled
    fun i read _ row => ?_
  · rintro ts ⟨i, more, eq, row⟩
    exact ⟨item w i, more, by simp [yields, eq], keeps w i row⟩
  · refine .pure_of_opens (yields w i) ⟨item w i, [], ?_, keeps w i row⟩
    simp [yields]

/-- The parser of rows is prompt. -/
theorem prompt (enough : 8 * m ≤ fuel) (enough' : 8 * n ≤ fuel') :
    Prompt tokens OpensRow [] m n (parse fuel) (parse fuel') := by
  induction fuel generalizing m n fuel' with
  | zero =>
    obtain rfl : m = 0 := by omega
    exact .nothing opensRow_nil
  | succ fuel ih =>
    have more : ∀ {n fuel'}, 8 * n ≤ fuel' + 1 →
        Prompt tokens OpensRow [] m n (parse (fuel + 1)) (parse (fuel' + 1)) := by
      intro n fuel' enough'
      have others : Prompt tokens OpensRow [] (m - 1) (n - 1) (parse fuel) (parse fuel') :=
        ih (by omega) (by omega)
      have ends : Prompt tokens OpensRow [] m n (pure nil) (pure nil) :=
        .pure_of_opens rfl opensRow_nil
      have other (k : Kind) : Prompt tokens OpensRow [] m n
          (if startsDeclaration k then parseDeclaration (parse fuel) fuel else pure nil)
          (if startsDeclaration k then parseDeclaration (parse fuel') fuel' else pure nil) :=
        .ite (prompt_declaration (by omega) (by omega) others) ends
      refine .peek fun k => ?_
      cases k with
      | none => exact ends
      | some k =>
        cases k with
        | semicolon =>
          have keeps (mark : Tok .semicolon) (i : Items) (row : i.forest.Settled []) :
              (semicolon mark i).forest.Settled [] := ⟨fun bare => (nomatch bare.1), trivial, row⟩
          exact prompt_behind (fun _ _ => rfl) keeps others
        | directive =>
          exact prompt_behind (fun _ _ => rfl) (fun _ _ row => Leaf.settled_row trivial row) others
        | _ => exact other _
    cases fuel' with
    | zero =>
      exact (@more 0 0 (by omega)).other (by omega)
    | succ fuel' => exact more enough'

end Items

end Conformance.Grammar
