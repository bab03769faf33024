import Conformance.Proofs.Model.Order
import Conformance.Proofs.Token.Edits

/-!
# Where declarations begin

The location of a declaration is the line and column of its first token, of its first attribute
or else its first modifier or else its keyword, at every depth of a source.  Declarations stand
in reading order: each behind those in front of it, and the members of a type behind where the
type begins.

Two things carry this.  Places further on in a source are later in reading order, because a line
and a column are counted up to an offset (`Position.IsIn.location_lt`).  And tokens begin one
behind the other, since each has some text (`pairwise_delivered`).  The rest is induction over
the rows of the source: the first token of a phrase is in front of all tokens of the next.
-/

namespace Conformance

/-! ## Reading order -/

/-- One place is in front of another on an earlier line, or on the same line in an earlier
column. -/
instance : LT Location where
  lt a b := a.line < b.line ∨ a.line = b.line ∧ a.column < b.column

namespace Position.IsIn

variable {source : List Char} {p q : Position}

/-- A place of a source is known by its offset. -/
theorem eq_of_offset (first : p.IsIn source) (second : q.IsIn source)
    (same : p.offset = q.offset) : p = q := by
  have line : p.line = q.line := by rw [first.line, second.line, same]
  have column : p.column = q.column := by rw [first.column, second.column, same]
  cases p
  cases q
  simp_all

/-- Places further on in a source are later in reading order. -/
theorem location_lt (first : p.IsIn source) (second : q.IsIn source)
    (less : p.offset < q.offset) : p.location < q.location := by
  have split : source.take q.offset =
      source.take p.offset ++ between source p.offset q.offset := by
    have lengths : q.offset = p.offset + (q.offset - p.offset) := by omega
    rw [between, ← List.take_add, ← lengths]
  by_cases feed : '\n' ∈ between source p.offset q.offset
  · refine .inl ?_
    have lines : q.line = p.line + (between source p.offset q.offset).count '\n' := by
      rw [second.line, first.line, split, List.count_append]
      omega
    have some := List.count_pos_iff.mpr feed
    simp only [Position.location]
    omega
  · -- Without a line feed between them the later place is the earlier one, shifted.
    have reach : q.offset = p.offset + (q.offset - p.offset) := by omega
    have shifted : (p.shift (q.offset - p.offset)).IsIn source := by
      refine first.shift (reach ▸ second.le) fun c mem => ?_
      rw [← reach] at mem
      rintro rfl
      exact feed mem
    have same := second.eq_of_offset shifted reach
    rw [same]
    refine .inr ⟨rfl, ?_⟩
    simp only [Position.location, Position.shift]
    omega

end Position.IsIn

/-- One token begins in front of another in reading order. -/
def Token.Before (t u : Token) : Prop := t.start.location < u.start.location

theorem before_delivered (source : List Char) : (lex source).delivered.Pairwise Token.Before :=
  (pairwise_delivered source).imp_of_mem fun first second =>
    (placed_delivered source _ first).start.location_lt (placed_delivered source _ second).start

/-! ## First tokens -/

namespace Grammar

/-- The first token of a modifier. -/
def Modifier.word : Modifier → Token
  | plain word => word.val
  | detailed word .. => word.val

namespace Head

variable (h : Head) (keyword : Token)

/-- The first token of a declaration with this head: the sign of its first attribute, else its
first modifier, else its keyword. -/
def first : Token :=
  match h.attributes, h.modifiers with
  | a :: _, _ => a.sign.val
  | [], m :: _ => m.word
  | [], [] => keyword

@[simp] theorem head?_tokens : h.tokens.head?.getD keyword = h.first keyword := by
  obtain ⟨attributes, modifiers⟩ := h
  match attributes, modifiers with
  | _ :: _, _ => rfl
  | [], .plain _ :: _ => rfl
  | [], .detailed .. :: _ => rfl
  | [], [] => rfl

theorem start_eq_first : h.start keyword = (h.first keyword).start := by
  rw [start, List.headD_eq_head?_getD, head?_tokens]

end Head

/-- The first token of a leaf. -/
def Leaf.first : Leaf → Token
  | directive line => line.val
  | property p => p.head.first p.keyword
  | cases c => c.head.first c.keyword.val
  | function head (some word) .. => head.first word.val
  | function head none keyword .. => head.first keyword.val
  | constructor head keyword .. => head.first keyword.val
  | destructor head keyword .. => head.first keyword.val
  | subscript head keyword .. => head.first keyword.val
  | typeAlias head keyword .. => head.first keyword.val
  | importing head keyword .. => head.first keyword.val

/-- The first token of a header. -/
def Header.first (h : Header) : Token := h.head.first h.keyword

theorem Leaf.start_eq_first (l : Leaf) : l.start = l.first.start := by
  cases l with
  | directive line => rfl
  | function head classWord =>
    cases classWord <;> exact Head.start_eq_first ..
  | _ => exact Head.start_eq_first ..

theorem Leaf.head?_tokens (l : Leaf) : l.tokens.head? = some l.first := by
  cases l with
  | directive line => rfl
  | property p =>
    obtain ⟨head, classWord, binder, bindings⟩ := p
    cases classWord <;> simp [tokens, Property.tokens, optionTokens, first, Property.keyword]
  | function head classWord =>
    cases classWord <;> simp [tokens, optionTokens, first]
  | _ => simp [tokens, CaseGroup.tokens, first]

theorem Header.head?_tokens (h : Header) : h.tokens.head? = some h.first := by
  cases h <;> simp [tokens, first, head, keyword]

end Grammar

/-! ## Locations -/

/-- Where a member begins. -/
def Member.location : Member → Location
  | property p => p.location
  | cases c => c.location
  | nominal head _ => head.location
  | stateless d => d.location
  | directive d => d.location

/-- Whether a member is a type. -/
def Member.isType : Member → Bool
  | nominal .. => true
  | _ => false

/-- The location of a phrase in a source: that of its first token, which stands there. -/
structure BeginsWith (source : List Char) (phrase : List Token) (t : Token) (l : Location) :
    Prop where
  /-- The token is the first of the phrase. -/
  first : phrase.head? = some t
  /-- It is a part of the source. -/
  text : t.text ≠ "" ∧ t.text.toList = between source t.start.offset t.stop.offset
  /-- It has the line and the column of its offset. -/
  place : t.start.IsIn source
  /-- The location is that of the token. -/
  location : l = t.start.location

variable {source : List Char}

theorem BeginsWith.of_infix {phrase : List Token} {t : Token} (first : phrase.head? = some t)
    (part : phrase <:+: (lex source).delivered) : BeginsWith source phrase t t.start.location := by
  have mem : t ∈ (lex source).delivered := part.subset (List.mem_of_head? first)
  have placed := placed_delivered source t mem
  obtain ⟨q, here⟩ := (tiles_delivered source).exists_isAt mem
  exact ⟨first, ⟨placed.text_ne, here.text⟩, placed.start, rfl⟩

/-- A leaf of a source with its member. -/
def Grammar.Leaf.BeginsAt (source : List Char) (l : Leaf) (m : Member) : Prop :=
  m.isType = false ∧ BeginsWith source l.tokens l.first m.location

/-- A header of a source with the head of its type. -/
def Grammar.Header.BeginsAt (source : List Char) (h : Header) (head : NominalHead) : Prop :=
  BeginsWith source h.tokens h.first head.location

namespace Grammar

theorem Leaf.beginsAt_member {l : Leaf} (part : l.tokens <:+: (lex source).delivered) :
    l.BeginsAt source l.member := by
  have here := BeginsWith.of_infix l.head?_tokens part
  rw [← l.start_eq_first] at here
  cases l <;> exact ⟨rfl, here⟩

theorem Leaf.beginsAt_declaration {l : Leaf} (part : l.tokens <:+: (lex source).delivered) :
    l.BeginsAt source l.declaration.member := by
  have here := BeginsWith.of_infix l.head?_tokens part
  rw [← l.start_eq_first] at here
  cases l <;> exact ⟨rfl, here⟩

theorem Header.beginsAt_nominalHead {h : Header}
    (part : h.tokens <:+: (lex source).delivered) : h.BeginsAt source h.nominalHead := by
  have here := BeginsWith.of_infix h.head?_tokens part
  rwa [Header.first, ← h.head.start_eq_first] at here

end Grammar

/-! ## Members in order -/

/-- Members stand in reading order, inside of types as well. -/
inductive InReadingOrder : List Member → Prop
  | intro {ms : List Member} (siblings : ms.Pairwise fun a b => a.location < b.location)
      (below : ∀ head members, .nominal head members ∈ ms →
        ∀ m ∈ members, head.location < m.location)
      (within : ∀ head members, .nominal head members ∈ ms → InReadingOrder members) :
      InReadingOrder ms

namespace InReadingOrder

variable {m : Member} {ms : List Member}

theorem nil : InReadingOrder [] := ⟨.nil, by simp, by simp⟩

theorem cons (behind : ∀ n ∈ ms, m.location < n.location)
    (inside : ∀ head members, m = .nominal head members →
      (∀ n ∈ members, head.location < n.location) ∧ InReadingOrder members)
    (later : InReadingOrder ms) : InReadingOrder (m :: ms) := by
  obtain ⟨siblings, below, within⟩ := later
  refine ⟨.cons behind siblings, fun head members mem => ?_, fun head members mem => ?_⟩
  · rcases List.mem_cons.mp mem with same | mem
    · exact (inside head members same.symm).1
    · exact below head members mem
  · rcases List.mem_cons.mp mem with same | mem
    · exact (inside head members same.symm).2
    · exact within head members mem

end InReadingOrder

/-- Members begin at some of the tokens. -/
def StartIn (ms : List Member) (ts : List Token) : Prop :=
  ∀ m ∈ ms, ∃ t ∈ ts, m.location = t.start.location

namespace StartIn

variable {ms : List Member} {front back ts us : List Token} {t : Token}

theorem mono (h : StartIn ms ts) (subset : ts ⊆ us) : StartIn ms us := fun m mem =>
  let ⟨t, within, location⟩ := h m mem
  ⟨t, subset within, location⟩

theorem cons {m : Member} (location : m.location = t.start.location) (mem : t ∈ ts)
    (later : StartIn ms ts) : StartIn (m :: ms) ts :=
  List.forall_mem_cons.mpr ⟨⟨t, mem, location⟩, later⟩

/-- A token is in front of all that begins at tokens behind it. -/
theorem before (h : StartIn ms back) (order : (front ++ back).Pairwise Token.Before)
    (mem : t ∈ front) : ∀ n ∈ ms, t.start.location < n.location := by
  intro n later
  obtain ⟨u, behind, location⟩ := h n later
  rw [location]
  exact (List.pairwise_append.mp order).2.2 t mem u behind

end StartIn

/-- Members that begin where the phrases of a row do are in reading order, for the tokens of the
row are. -/
theorem Grammar.Items.Declares.inReadingOrder {i : Items} {ms : List Member}
    (declares : i.Declares (Leaf.BeginsAt source) (Header.BeginsAt source) ms)
    (order : i.tokens.Pairwise Token.Before) : InReadingOrder ms ∧ StartIn ms i.tokens := by
  induction declares with
  | nil => exact ⟨.nil, by simp [StartIn]⟩
  | semicolon later ih =>
    obtain ⟨ordered, starts⟩ := ih order.of_cons
    exact ⟨ordered, starts.mono (List.subset_cons_self ..)⟩
  | @leaf l rest m ms here later ih =>
    obtain ⟨ordered, starts⟩ := ih (List.pairwise_append.mp order).2.1
    obtain ⟨noType, begins⟩ := here
    have first : l.first ∈ l.tokens := List.mem_of_head? begins.first
    refine ⟨.cons ?_ (fun head members same => ?_) ordered,
      .cons begins.location (List.mem_append_left _ first)
        (starts.mono (List.subset_append_right ..))⟩
    · rw [begins.location]
      exact starts.before order first
    · rw [same] at noType
      cases noType
  | @nominal header opening inner closing rest head members ms here within later ihInner ihRest =>
    -- The header, the members and what is behind the type are ordered each and all together.
    obtain ⟨front, back, -⟩ := List.pairwise_append.mp order
    have innerOrder := (List.pairwise_append.mp front).2.1.of_cons
    obtain ⟨ordered, starts⟩ := ihRest back.of_cons
    obtain ⟨innerOrdered, innerStarts⟩ := ihInner innerOrder
    have first : header.first ∈ header.tokens := List.mem_of_head? here.first
    have inside : ∀ n ∈ members, head.location < n.location := by
      rw [here.location]
      exact (innerStarts.mono (List.subset_cons_self ..)).before front first
    have behind : ∀ n ∈ ms, head.location < n.location := by
      rw [here.location]
      exact (starts.mono (List.subset_cons_self ..)).before order (List.mem_append_left _ first)
    refine ⟨.cons behind (fun head' members' same => ?_) ordered,
      .cons here.location (List.mem_append_left _ (List.mem_append_left _ first))
        (starts.mono (List.subset_append_of_subset_right _ (List.subset_cons_self ..)))⟩
    cases same
    exact ⟨inside, innerOrdered⟩

/-! ## Units and warnings -/

namespace SourceFile

variable (f : SourceFile) (o : Options)

/-- The units of a source are those of its types with blocks, each with the name and the location
of its type. -/
theorem map_units (s : Settings) : (f.units o s).map (fun u => (u.name, u.location)) =
    (f.nominals.filter fun n => !(n.blocks o s).isEmpty).map fun n =>
      (n.head.name, n.head.location) := by
  rw [units, List.map_filterMap]
  induction f.nominals with
  | nil => rfl
  | cons n ns ih =>
    rw [List.filterMap_cons, List.filter_cons, ih, Nominal.unit?]
    cases (n.blocks o s).isEmpty <;> rfl

/-- The warnings of a source are those of its classes that are not final, each with the location
of its class. -/
theorem map_warnings :
    (f.warnings o).map (fun w => (w.code, w.span)) =
      if o.serialization then (f.nominals.filter Nominal.needsFinal).map fun n =>
        (some "W-NONFINAL-CLASS", .ofLocation n.head.location f.filename)
      else [] := by
  rw [warnings]
  split
  · rw [List.map_map]
    rfl
  · rfl

end SourceFile

/-! ## Sources -/

/-- In a source that is read each declaration begins where its first token does, at every depth,
and all declarations are in reading order.  The units and the warnings that are made of it have the
locations of their types. -/
theorem SourceFile.read_locations {text : String} {filename : Option String} {f : SourceFile}
    (accepted : read text filename = .ok f) :
    (∃ i : Grammar.Items, i.tokens = (lex text.toList).delivered ∧
      i.Declares (Grammar.Leaf.BeginsAt text.toList) (Grammar.Header.BeginsAt text.toList)
        (f.declarations.map Declaration.member)) ∧
    InReadingOrder (f.declarations.map Declaration.member) ∧
    ∀ o,
      (∀ s, (f.units o s).map (fun u => (u.name, u.location)) =
        (f.nominals.filter fun n => !(n.blocks o s).isEmpty).map fun n =>
          (n.head.name, n.head.location)) ∧
      (f.warnings o).map (fun w => (w.code, w.span)) =
        if o.serialization then (f.nominals.filter Nominal.needsFinal).map fun n =>
          (some "W-NONFINAL-CLASS", .ofLocation n.head.location f.filename)
        else [] := by
  obtain ⟨i, -, parsed, rfl⟩ := read_eq_ok.mp accepted
  obtain ⟨tokens, -⟩ := Grammar.tokens_of_parse parsed
  have declares : i.Declares (Grammar.Leaf.BeginsAt text.toList)
      (Grammar.Header.BeginsAt text.toList) (i.declarations.map Declaration.member) :=
    Grammar.Items.declares_declarations (fun _ => Grammar.Leaf.beginsAt_member)
      (fun _ => Grammar.Leaf.beginsAt_declaration) (fun _ => Grammar.Header.beginsAt_nominalHead)
      (tokens ▸ List.infix_rfl)
  have order : i.tokens.Pairwise Token.Before := tokens ▸ before_delivered text.toList
  exact ⟨⟨i, tokens, declares⟩, (declares.inReadingOrder order).1, fun o =>
    ⟨map_units _ o, map_warnings _ o⟩⟩

/-- A class with an attribute on a line of its own, and in it a line of compiler control, a public
structure and a function of the class. -/
def nestedText : String :=
  "@a\nclass C \x7b\n  #if X\n  public struct S \x7b /* s */ private\n" ++
    "    static let x = 1 \x7d\n  class func f()\n\x7d"

theorem SourceFile.read_nestedText : ∃ f, read nestedText none = .ok f ∧
    (f.nominals.map fun n => (n.head.location, n.members.map Member.location)) =
      [(⟨1, 1⟩, [⟨3, 3⟩, ⟨4, 3⟩, ⟨6, 3⟩])] ∧
    InReadingOrder (f.declarations.map Declaration.member) ∧
    (f.warnings { serialization := true }).map (fun w => (w.code, w.span)) =
      [(some "W-NONFINAL-CLASS", .ofLocation ⟨1, 1⟩ none)] := by
  let see (f : SourceFile) :
      List (Location × List Location) × List (Option String × Span) :=
    (f.nominals.map fun n => (n.head.location, n.members.map Member.location),
      (f.nominals.filter Nominal.needsFinal).map fun n =>
        (some "W-NONFINAL-CLASS", .ofLocation n.head.location f.filename))
  have seen : (read nestedText none).toOption.map see =
      some ([(⟨1, 1⟩, [⟨3, 3⟩, ⟨4, 3⟩, ⟨6, 3⟩])],
        [(some "W-NONFINAL-CLASS", .ofLocation ⟨1, 1⟩ none)]) := by
    decide +kernel
  obtain ⟨f, accepted, same⟩ := exists_ok_of _ seen
  obtain ⟨locations, classes⟩ := Prod.mk.inj same
  obtain ⟨-, ordered, made⟩ := read_locations accepted
  exact ⟨f, accepted, locations, ordered, (made { serialization := true }).2.trans classes⟩

end Conformance
