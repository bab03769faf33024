import Conformance.Proofs.Grammar.Bodies
import Conformance.Proofs.Model.BlockTexts
import Conformance.Proofs.Model.Neighbours
import Conformance.Proofs.Token.Edits

/-!
# Bodies are opaque

The body of a function, an initializer, a deinitializer or a subscript may hold any tokens whose
brackets are balanced.  A source with others in their place is accepted as well, it declares the
same but for places, and the same text is generated for it (`SourceFile.read_edited`).

Two things are asked of the edit.  The first token between the braces does not open an observer,
since it would mark the brace in front of it.  And the tokens around the braces are the same,
each where it was in the part of the source that stays (`BodyEdit`): a body may close a comment
that is opened in front of it, and bring along the tokens that are lost in there.
-/

namespace Conformance

open Grammar

/-! ## Declarations without places -/

/-- A declaration with all its places left out. -/
def Declaration.unplaced : Declaration → Declaration := Declaration.relocate fun _ => default

namespace SourceFile

/-- What does not count for blocks does not count for the text that is generated. -/
theorem renderUnits_congr_of {f g : SourceFile} {seen : Declaration → Declaration}
    (blocks : ∀ d o s, (seen d).blocks o s = d.blocks o s)
    (same : g.declarations.map seen = f.declarations.map seen) (o : Options) (s : Settings) :
    renderUnits (g.units o s) = renderUnits (f.units o s) := by
  have seenBlocks (ds : List Declaration) : ds.flatMap (Declaration.blocks · o s) =
      (ds.map seen).flatMap (Declaration.blocks · o s) := by
    simp only [List.flatMap_map, blocks]
  rw [renderUnits_units, renderUnits_units, seenBlocks, same, ← seenBlocks]

/-- Places do not count for the text that is generated. -/
theorem renderUnits_congr {f g : SourceFile}
    (same : g.declarations.map Declaration.unplaced = f.declarations.map Declaration.unplaced)
    (o : Options) (s : Settings) : renderUnits (g.units o s) = renderUnits (f.units o s) :=
  renderUnits_congr_of (Declaration.blocks_relocate _) same o s

end SourceFile

/-! ## Edits of a body -/

/-- The bodies of the functions, initializers, deinitializers and subscripts in a text. -/
def bodiesIn (text : String) : List BodySite :=
  match readSyntax text.toList with
  | .ok i => i.bodies
  | .error _ => []

/-- Where an offset comes to if one text in front of it takes the place of another one. -/
def offsetBehind (old new : List Char) (n : Nat) : Nat := n - old.length + new.length

/-- An edit of a text between the braces of a body, around which the tokens stay as they are. -/
structure BodyEdit (text : String) (b : BodySite) (edited : String) where
  /-- The text up to the opening brace. -/
  before : List Char
  /-- The text between the braces. -/
  old : List Char
  /-- The text in its place. -/
  new : List Char
  /-- The text from the closing brace on. -/
  after : List Char
  /-- The text that is edited. -/
  text_eq : text.toList = before ++ old ++ after
  /-- The edited text. -/
  edited_eq : edited.toList = before ++ new ++ after
  /-- The edit begins behind the opening brace. -/
  length_before : before.length = b.opening.stop.offset
  /-- It ends in front of the closing one. -/
  length_old : (before ++ old).length = b.closing.start.offset
  /-- The tokens in front of the braces. -/
  front : List Token
  /-- The opening brace. -/
  opening : Token
  /-- The tokens between the braces. -/
  inside : List Token
  /-- The closing brace. -/
  closing : Token
  /-- The tokens behind the braces. -/
  back : List Token
  /-- Nothing is stray in the edited text. -/
  clean : (lex edited.toList).stray? = none
  /-- These are the tokens of the edited text. -/
  tokens : (lex edited.toList).delivered = front ++ opening :: (inside ++ closing :: back)
  /-- The tokens in front stay where they are. -/
  front_eq : front.map Token.spot = b.front.map Token.spot
  /-- So does the opening brace. -/
  opening_eq : opening.spot = b.opening.spot
  /-- The closing brace moves with the text. -/
  closing_eq : closing.spot = (b.closing.lexeme, offsetBehind old new b.closing.start.offset)
  /-- So do the tokens behind it. -/
  back_eq : back.map Token.spot =
    b.back.map fun t => (t.lexeme, offsetBehind old new t.start.offset)

/-! ## Moves to other tokens -/

/-- Tokens that are all different can be moved to any others of their kinds and texts. -/
theorem Grammar.Move.exists_map_eq {ts us : List Token} (different : ts.Nodup)
    (same : us.map Token.face = ts.map Token.face) :
    ∃ v : Move, ts.map v.token = us ∧ ∀ t, t ∉ ts → v.token t = t := by
  induction ts generalizing us with
  | nil =>
    obtain rfl := List.map_eq_nil_iff.mp same
    exact ⟨⟨id, fun _ => rfl, fun _ => rfl⟩, rfl, fun _ _ => rfl⟩
  | cons t ts ih =>
    obtain ⟨u, us, rfl, here, others⟩ := List.map_eq_cons_iff.mp same
    obtain ⟨kind, text⟩ := Prod.mk.inj here
    obtain ⟨new, different⟩ := List.nodup_cons.mp different
    obtain ⟨v, moved, still⟩ := ih different others
    have token (x : Token) (h : x ∈ ts) : (if x = t then u else v.token x) = v.token x :=
      if_neg fun (eq : x = t) => new (eq ▸ h)
    refine ⟨⟨fun x => if x = t then u else v.token x, fun x => ?_, fun x => ?_⟩, ?_,
      fun x out => ?_⟩
    · split
      next eq => rw [eq, kind]
      next => exact v.kind_token x
    · split
      next eq => rw [eq, text]
      next => exact v.text_token x
    · exact (congrArg₂ List.cons (if_pos rfl) (List.map_congr_left token)).trans (by rw [moved])
    · obtain ⟨ne, out⟩ := not_or.mp (mt List.mem_cons.mpr out)
      exact (if_neg ne).trans (still x out)

namespace BodyEdit

variable {text edited : String} {b : BodySite} (e : BodyEdit text b edited)

section
variable (tokens : (lex text.toList).delivered = b.swap b.group)
include tokens

/-! ## Layout around an edit -/

theorem layout_front : e.front.map Token.layout = b.front.map Token.layout := by
  have tiles := tiles_delivered text.toList
  have tiles' := tiles_delivered edited.toList
  rw [tokens, BodySite.swap, List.append_assoc] at tiles
  rw [e.tokens] at tiles'
  have opening : b.opening.IsAt text.toList (Token.reach 0 b.front) := tiles.right.1
  have start := opening.start
  have stop := opening.stop
  have front := e.length_before
  refine Token.Tiles.layouts_eq (p := id) tiles.left tiles'.left e.front_eq (fun _ _ _ => rfl)
    fun x y _ le => ?_
  rw [e.text_eq, e.edited_eq, List.append_assoc, List.append_assoc]
  rw [between_left _ _ (by simp only [id]; omega), between_left _ _ (by omega)]
  rfl

theorem layout_back : e.back.map Token.layout = b.back.map Token.layout := by
  have tiles := tiles_delivered text.toList
  have tiles' := tiles_delivered edited.toList
  have group : b.group.tokens = b.opening :: b.group.body.tokens ++ [b.closing] := rfl
  rw [tokens, BodySite.swap, group, ← List.append_assoc, List.append_assoc _ [_]] at tiles
  rw [e.tokens, ← List.cons_append, ← List.append_assoc] at tiles'
  have text : e.closing.text = b.closing.text :=
    congrArg (fun p : Lexeme × Nat => p.1.text) e.closing_eq
  have start : e.closing.start.offset = offsetBehind e.old e.new b.closing.start.offset :=
    congrArg Prod.snd e.closing_eq
  have stop := tiles.right.1.stop
  have stop' := tiles'.right.1.stop
  have front := e.length_old
  rw [List.length_append] at front
  have here : e.closing.stop.offset = offsetBehind e.old e.new b.closing.stop.offset := by
    rw [stop', stop, start, text]
    unfold offsetBehind
    omega
  refine Token.Tiles.layouts_eq (p := offsetBehind e.old e.new) tiles.right.2
    (here ▸ tiles'.right.2) e.back_eq (fun x n le => ?_) fun x y le _ => ?_
  · unfold offsetBehind
    omega
  · rw [e.text_eq, e.edited_eq, between_right, between_right]
    · congr 1 <;> simp only [offsetBehind, List.length_append] <;> omega
    · rw [List.length_append]
      omega
    · rw [List.length_append, offsetBehind]
      omega

/-! ## Kinds around an edit -/

variable (clean : (lex text.toList).stray? = none)
include clean

/-- The tokens in front of the braces keep their kinds, marks included. -/
theorem face_front : e.front.map Token.face = b.front.map Token.face := by
  have lexemes : e.front.map Token.lexeme = b.front.map Token.lexeme := by
    simpa [Function.comp_def, Token.spot] using congrArg (List.map Prod.fst) e.front_eq
  have length := congrArg List.length lexemes
  rw [List.length_map, List.length_map] at length
  have opening : e.opening.lexeme = b.opening.lexeme := congrArg Prod.fst e.opening_eq
  rw [face_ahead e.clean e.tokens, lexemes, opening, length]
  have whole : (lex text.toList).delivered =
      b.front ++ b.opening :: (b.group.body.tokens ++ b.closing :: b.back) := by
    simp [tokens, BodySite.swap, Group.tokens, BodySite.opening, BodySite.closing]
  exact (face_ahead clean whole).symm

/-- So do the closing brace and the tokens behind it. -/
theorem face_closing : (e.closing :: e.back).map Token.face =
    (b.closing :: b.back).map Token.face := by
  have back : e.back.map Token.lexeme = b.back.map Token.lexeme := by
    simpa [Function.comp_def, Token.spot] using congrArg (List.map Prod.fst) e.back_eq
  have closing : e.closing.lexeme = b.closing.lexeme := congrArg Prod.fst e.closing_eq
  have lexemes : (e.closing :: e.back).map Token.lexeme =
      (b.closing :: b.back).map Token.lexeme := by
    rw [List.map_cons, List.map_cons, closing, back]
  have whole : (lex text.toList).delivered =
      (b.front ++ b.opening :: b.group.body.tokens) ++ b.closing :: b.back := by
    simp [tokens, BodySite.swap, Group.tokens, BodySite.opening, BodySite.closing]
  have whole' : (lex edited.toList).delivered =
      (e.front ++ e.opening :: e.inside) ++ e.closing :: e.back := by
    simp [e.tokens]
  rw [face_behind e.clean whole', face_behind clean whole, lexemes]

theorem kind_closing : e.closing.kind = .rightBrace := by
  have faces := congrArg List.head? (e.face_closing tokens clean)
  rw [List.map_cons, List.map_cons, List.head?_cons, List.head?_cons, Option.some.injEq] at faces
  exact (congrArg Prod.fst faces).trans b.group.closing.kind_eq

/-- The opening brace is not marked. -/
theorem kind_opening (first : ∀ t ∈ e.inside.head?, t.opensObserver = false) :
    e.opening.kind = .leftBrace := by
  have kind : e.opening.lexeme.kind = .leftBrace := by
    have same : e.opening.lexeme = b.opening.lexeme := congrArg Prod.fst e.opening_eq
    rw [same, Token.lexeme, BodySite.opening, b.group.opening.kind_eq]
    rfl
  have next : ((e.inside ++ e.closing :: e.back).map Token.lexeme).head?.any
      Lexeme.opensObserver = false := by
    cases eq : e.inside with
    | nil =>
      have off := e.closing.opensObserver_lexeme
      rw [Token.opensObserver, e.kind_closing tokens clean] at off
      exact off
    | cons t ts => exact t.opensObserver_lexeme.trans (first t (by rw [eq]; rfl))
  have faces := congrArg List.head? (face_behind e.clean e.tokens)
  rw [List.map_cons, List.map_cons, Conformance.faces, next, kind] at faces
  exact congrArg Prod.fst (Option.some.inj faces)

/-! ## The move of an edit -/

/-- The tokens around a body are moved to those around the edit, with their layout. -/
theorem exists_move : ∃ v : Move, b.front.map v.token = e.front ∧ b.back.map v.token = e.back ∧
    v.Keeps (lex text.toList).delivered := by
  have different := nodup_delivered text.toList
  rw [tokens, BodySite.swap, List.append_assoc] at different
  obtain ⟨nodupFront, nodupRest, apart⟩ := List.nodup_append.mp different
  obtain ⟨nodupGroup, nodupBack, apartBack⟩ := List.nodup_append.mp nodupRest
  have around : (b.front ++ b.back).Nodup :=
    List.nodup_append.mpr ⟨nodupFront, nodupBack,
      fun t mem u mem' => apart t mem u (List.mem_append_right _ mem')⟩
  have faces : (e.front ++ e.back).map Token.face = (b.front ++ b.back).map Token.face := by
    have back := congrArg List.tail (e.face_closing tokens clean)
    rw [List.map_append, List.map_append, e.face_front tokens clean]
    exact congrArg _ back
  obtain ⟨v, moved, still⟩ := Move.exists_map_eq around faces
  have length : (b.front.map v.token).length = e.front.length := by
    have lengths := congrArg List.length (e.layout_front tokens)
    simpa using lengths.symm
  rw [List.map_append] at moved
  obtain ⟨movedFront, movedBack⟩ := List.append_inj moved length
  refine ⟨v, movedFront, movedBack, fun t mem => ?_⟩
  have mem := List.mem_of_mem_tail mem
  rw [tokens, BodySite.swap, List.append_assoc, List.mem_append, List.mem_append] at mem
  rcases mem with mem | mem | mem
  · have layouts := e.layout_front tokens
    rw [← movedFront, List.map_map] at layouts
    exact List.map_inj_left.mp layouts t mem
  · rw [still t fun out => ?_]
    rcases List.mem_append.mp out with out | out
    · exact apart t out t (List.mem_append_left _ mem) rfl
    · exact apartBack t mem t out rfl
  · have layouts := e.layout_back tokens
    rw [← movedBack, List.map_map] at layouts
    exact List.map_inj_left.mp layouts t mem

end

end BodyEdit

/-! ## Reading an edited source -/

/-- The row of an accepted source. -/
theorem exists_row {text : String} {filename : Option String} {f : SourceFile}
    (accepted : SourceFile.read text filename = .ok f) :
    ∃ i : Items, (lex text.toList).stray? = none ∧ i.tokens = (lex text.toList).delivered ∧
      i.forest.Settled [] ∧ bodiesIn text = i.bodies ∧ f = ⟨i.declarations, filename⟩ := by
  obtain ⟨i, clean, parsed, rfl⟩ := SourceFile.read_eq_ok.mp accepted
  obtain ⟨tokens, settled⟩ := tokens_of_parse parsed
  refine ⟨i, clean, tokens, settled, ?_, rfl⟩
  rw [bodiesIn, readSyntax_eq_ok.mpr ⟨clean, parsed⟩]

/-- A source is accepted with any level tokens between the braces of a body, unless the first
of them opens an observer.  Its declarations are the same but for places, and the text that is
generated for it is the same. -/
theorem SourceFile.read_edited {text edited : String} {filename : Option String} {f : SourceFile}
    {b : BodySite} (accepted : read text filename = .ok f) (mem : b ∈ bodiesIn text)
    (e : BodyEdit text b edited) (level : IsLevel (e.inside.map Token.kind))
    (first : ∀ t ∈ e.inside.head?, t.opensObserver = false) :
    ∃ g, read edited filename = .ok g ∧
      g.declarations.map Declaration.unplaced = f.declarations.map Declaration.unplaced ∧
      ∀ (o : Options) (s : Settings), renderUnits (g.units o s) = renderUnits (f.units o s) := by
  obtain ⟨i, clean, whole, settled, bodies, rfl⟩ := exists_row accepted
  rw [bodies] at mem
  have tokens : (lex text.toList).delivered = b.swap b.group :=
    whole.symm.trans (Items.tokens_of_mem_bodies mem).2
  obtain ⟨v, front, back, keeps⟩ := e.exists_move tokens clean
  obtain ⟨g, group⟩ := exists_group (b := .brace) (e.kind_opening tokens clean first)
    (e.kind_closing tokens clean) level
  obtain ⟨j, parsed, same⟩ := exists_parse_swap settled mem v g
  have delivered : (b.move v).swap g = (lex edited.toList).delivered := by
    simp [BodySite.swap, BodySite.move, front, back, group, e.tokens]
  rw [delivered] at parsed
  have declarations : j.declarations.map Declaration.unplaced =
      i.declarations.map Declaration.unplaced := by
    rw [same]
    exact Items.declarations_relocate (fun _ => rfl) (whole ▸ keeps)
  refine ⟨⟨j.declarations, filename⟩, ?_, declarations, fun o s => ?_⟩
  · exact SourceFile.read_eq_ok.mpr ⟨j, e.clean, parsed, rfl⟩
  · exact renderUnits_congr declarations o s

/-- A class with an initializer in front of a property. -/
def initializerText (body : String) : String :=
  "class C\x7binit()\x7b" ++ body ++ "\x7dlet b=2\x7d"

/-- A body that observes a property. -/
def observing : String := "var c=1\x7bdidSet\x7b\x7d\x7d"

/-- The tokens of the class with that body. -/
def observingTokens : List Token := (lex (initializerText observing).toList).delivered

theorem exists_observingEdit : ∃ b ∈ bodiesIn (initializerText "a"),
    ∃ e : BodyEdit (initializerText "a") b (initializerText observing),
      e.inside = (observingTokens.drop 7).take 9 := by
  obtain ⟨b, only⟩ : ∃ b, bodiesIn (initializerText "a") = [b] :=
    List.length_eq_one_iff.mp (by decide +kernel)
  let around := (lex (initializerText "a").toList).delivered.map Token.spot
  have spots : (bodiesIn (initializerText "a")).map (fun b => [b.front.map Token.spot,
      [b.opening.spot], [b.closing.spot], b.back.map Token.spot]) =
        [[around.take 6, [(⟨.leftBrace, "\x7b"⟩, 14)], [(⟨.rightBrace, "\x7d"⟩, 16)],
          around.drop 9]] ∧
      (bodiesIn (initializerText "a")).map (·.opening.stop.offset) = [15] := by
    decide +kernel
  have edit : (lex (initializerText observing).toList).stray? = none ∧
      observingTokens = observingTokens.take 6 ++ observingTokens[6]! ::
        ((observingTokens.drop 7).take 9 ++ observingTokens[16]! :: observingTokens.drop 17) ∧
      (observingTokens.take 6).map Token.spot = around.take 6 ∧
      observingTokens[6]!.spot = (⟨.leftBrace, "\x7b"⟩, 14) ∧
      observingTokens[16]!.spot = (⟨.rightBrace, "\x7d"⟩, 32) ∧
      (observingTokens.drop 17).map Token.spot = (around.drop 9).map fun p =>
        (p.1, offsetBehind "a".toList observing.toList p.2) := by
    decide +kernel
  obtain ⟨spots, stops⟩ := spots
  obtain ⟨clean, tokens, sameFront, sameOpening, sameClosing, sameBack⟩ := edit
  simp only [only, List.map_cons, List.map_nil, List.cons.injEq, and_true] at spots stops
  obtain ⟨front, opening, closing, back⟩ := spots
  obtain ⟨lexeme, start⟩ : b.closing.lexeme = ⟨.rightBrace, "\x7d"⟩ ∧ b.closing.start.offset = 16 :=
    Prod.mk.inj closing
  refine ⟨b, only ▸ List.mem_singleton_self b, {
    before := "class C\x7binit()\x7b".toList
    old := "a".toList
    new := observing.toList
    after := "\x7dlet b=2\x7d".toList
    front := observingTokens.take 6
    opening := observingTokens[6]!
    inside := (observingTokens.drop 7).take 9
    closing := observingTokens[16]!
    back := observingTokens.drop 17
    text_eq := by decide +kernel
    edited_eq := by decide +kernel
    length_before := stops.symm
    length_old := start.symm
    clean := clean
    tokens := tokens
    front_eq := sameFront.trans front.symm
    opening_eq := sameOpening.trans opening.symm
    closing_eq := by
      rw [sameClosing, lexeme, start]
      rfl
    back_eq := by
      rw [sameBack, ← back, List.map_map]
      rfl }, rfl⟩

theorem SourceFile.read_observing : ∃ f g, read (initializerText "a") none = .ok f ∧
    read (initializerText observing) none = .ok g ∧
    g.declarations.map Declaration.unplaced = f.declarations.map Declaration.unplaced := by
  obtain ⟨f, accepted⟩ := exists_read (initializerText "a") (by decide +kernel)
  obtain ⟨b, mem, e, inside⟩ := exists_observingEdit
  have level : IsLevel (e.inside.map Token.kind) := by
    rw [inside]
    decide +kernel
  have first : ∀ t ∈ e.inside.head?, t.opensObserver = false := by
    rw [inside]
    decide +kernel
  obtain ⟨g, read, same, -⟩ := SourceFile.read_edited accepted mem e level first
  exact ⟨f, g, accepted, read, same⟩

end Conformance
