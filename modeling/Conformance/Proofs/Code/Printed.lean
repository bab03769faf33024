import Conformance.Code.Line
import Conformance.Code.Name
import Conformance.Proofs.Grammar.Fits
import Conformance.Proofs.Token.Woven
import Conformance.Settings

/-!
# Printed code

Lines of generated code are fixed texts with names, types and literals put into them.  What is
put in is a *filler*: it is lexed by itself, and its brackets are balanced.  So of a line the
fixed texts alone tell what brackets it opens and closes, and these can be computed
(`piece_of_frame`).

Lines in a row are `Code` that leads from some open brackets to others, and a `Body` if nothing
is left open and no observer is opened at the front.
-/

namespace Conformance

open Pattern Lexical Grammar

/-! ## Fillers -/

/-- A text that is lexed by itself, with balanced brackets. -/
def IsFiller (s : String) : Prop := ∃ ls, Piece s ls ∧ IsLevel (ls.map Lexeme.kind)

theorem Kind.isBracket_ofWord (s : String) : (Kind.ofWord s).isBracket = false := by
  have words : ∀ p ∈ Kind.reserved, p.2.isBracket = false := by decide
  rcases Kind.ofWord_cases s with is | mem
  · rw [is]
    rfl
  · exact words _ mem

theorem IsPlainName.isFiller {s : String} (plain : IsPlainName s) : IsFiller s :=
  ⟨_, plain.piece, .cons (Kind.isBracket_ofWord s) .nil⟩

theorem IsLiteralText.isFiller {cs : List Char} (h : IsLiteralText cs) :
    IsFiller (String.ofList ('"' :: cs ++ ['"'])) :=
  ⟨_, h.piece, .cons rfl .nil⟩

/-- A plain name that can name a type. -/
structure IsTypeName (s : String) : Prop where
  /-- It is plain. -/
  plain : IsPlainName s
  /-- It is not reserved. -/
  kind : Kind.ofWord s = .name

instance (s : String) : Decidable (IsTypeName s) :=
  decidable_of_iff (IsPlainName s ∧ Kind.ofWord s = .name)
    ⟨fun ⟨plain, kind⟩ => ⟨plain, kind⟩, fun ⟨plain, kind⟩ => ⟨plain, kind⟩⟩

/-- A plain name that can name a property or a case. -/
structure IsMemberName (s : String) : Prop where
  /-- It is plain. -/
  plain : IsPlainName s
  /-- It may be reserved in other places only. -/
  identifier : (Kind.ofWord s).isIdentifier = true

instance (s : String) : Decidable (IsMemberName s) :=
  decidable_of_iff (IsPlainName s ∧ (Kind.ofWord s).isIdentifier = true)
    ⟨fun ⟨plain, identifier⟩ => ⟨plain, identifier⟩, fun ⟨plain, identifier⟩ => ⟨plain, identifier⟩⟩

theorem IsTypeName.piece {s : String} (h : IsTypeName s) : Piece s [⟨.name, s⟩] := by
  have piece := h.plain.piece
  rwa [h.kind] at piece

/-! ## Frames -/

/-- A text with fillers put in: a fixed text, and behind each filler another one. -/
def fill (first : String) (fillers fixed : List String) : String :=
  first ++ String.join (List.zipWith (· ++ ·) fillers fixed)

/-- What holds of the empty text, and of two texts with a comma between them if it holds of both,
holds of any texts with commas between them. -/
theorem commaList_induction {holds : String → Prop} (empty : holds "")
    (join : ∀ s t, holds s → holds t → holds (fill "" [s, t] [", ", ""])) {items : List String}
    (each : ∀ s ∈ items, holds s) : holds (commaList items) := by
  cases items with
  | nil => exact empty
  | cons s items =>
    induction items generalizing s with
    | nil => simpa [commaList] using each
    | cons t items ih =>
      obtain ⟨here, others⟩ := List.forall_mem_cons.mp each
      have both : commaList (s :: t :: items) =
          fill "" [s, commaList (t :: items)] [", ", ""] := by
        simp [commaList, fill, String.intercalate_cons_cons, String.append_assoc]
      rw [both]
      exact join s _ here (ih t others)

/-- Whether a fixed text can stand behind one that is put in, and in front of any. -/
def isInner (s : String) : Bool := isLead s && s.toList.head?.all halts

/-- Whether fixed texts can stand behind texts that are put in. -/
def areBehind : List String → Bool
  | [] => true
  | [s] => s.isEmpty || isInner s
  | s :: rest => isInner s && areBehind rest

/-- The kinds of the lexemes of fixed texts. -/
def frameKinds (fixed : List String) : List Kind :=
  fixed.flatMap fun s => (leadLexemes s).map Lexeme.kind

/-- Whether fixed texts are a frame that leads from some open brackets to others. -/
def isFrame (first : String) (fixed : List String) (opened closed : List Bracket) : Bool :=
  (first.isEmpty || isLead first) && areBehind fixed &&
    decide (nesting opened (frameKinds (first :: fixed)) = some closed)

/-- Whether a frame begins in its first text, with no observer. -/
def isOpening (first : String) (fixed : List String) (opened : List Bracket) : Bool :=
  isFrame first fixed [] opened && (leadLexemes first).head?.any (!·.opensObserver)

/-- Whether a fixed line leads from some open brackets to others. -/
def isFixed (s : String) (opened closed : List Bracket) : Bool :=
  isNear s.toList && decide (nesting opened ((lexemesIn s.toList).map Lexeme.kind) = some closed)

/-- Whether a fixed line begins with no observer. -/
def isFixedOpening (s : String) (opened : List Bracket) : Bool :=
  isFixed s [] opened && (lexemesIn s.toList).head?.any (!·.opensObserver)

section
variable {first s : String} {fillers fixed : List String} {opened closed : List Bracket}

theorem piece_empty : Piece "" [] :=
  ⟨fun _ _ => .done, .of_chars (by simp) (by simp)⟩

theorem halts_of_isInner (inner : isInner s = true) (t : String) : Halts (s ++ t).toList := by
  obtain ⟨lead, head⟩ := Bool.and_eq_true_iff.mp inner
  cases chars : s.toList with
  | nil => simp [isLead, chars] at lead
  | cons c cs =>
    rw [chars] at head
    rw [String.toList_append, chars]
    simpa [Halts] using head

/-- Fillers with fixed texts behind them are lexed as pieces, and their brackets are those of the
fixed texts. -/
theorem piece_behind (frame : areBehind fixed = true) (all : fillers.length = fixed.length)
    (each : ∀ h ∈ fillers, IsFiller h) :
    ∃ ls, Piece (String.join (List.zipWith (· ++ ·) fillers fixed)) ls ∧
      ∀ opened, nesting opened (ls.map Lexeme.kind) = nesting opened (frameKinds fixed) := by
  induction fixed generalizing fillers with
  | nil =>
    obtain rfl := List.length_eq_zero_iff.mp all
    exact ⟨[], piece_empty, fun _ => rfl⟩
  | cons s fixed ih =>
    obtain ⟨h, fillers, rfl⟩ := List.exists_cons_of_length_eq_add_one all
    obtain ⟨⟨hs, piece, level⟩, others⟩ := List.forall_mem_cons.mp each
    have levels {ks : List Lexeme} (opened : List Bracket) :
        nesting opened ((hs ++ ks).map Lexeme.kind) = nesting opened (ks.map Lexeme.kind) := by
      rw [List.map_append, nesting_append, level.nesting_eq, Option.bind_some]
    rw [List.zipWith_cons_cons, String.join_cons, String.append_assoc]
    cases fixed with
    | nil =>
      obtain rfl := List.length_eq_zero_iff.mp (Nat.succ.inj all)
      rcases Bool.or_eq_true_iff.mp frame with empty | inner
      · obtain rfl : s = "" := String.isEmpty_iff.mp empty
        refine ⟨hs, by simpa using piece, fun opened => ?_⟩
        rw [← List.append_nil hs, levels]
        rfl
      · have lead := (lead_of_isLead (Bool.and_eq_true_iff.mp inner).1).piece
        have halts := halts_of_isInner inner ""
        rw [String.append_empty] at halts
        refine ⟨hs ++ leadLexemes s, by simpa using piece.append lead halts, fun opened => ?_⟩
        rw [levels]
        simp [frameKinds]
    | cons t fixed =>
      obtain ⟨inner, behind⟩ := Bool.and_eq_true_iff.mp frame
      obtain ⟨ls, further, kinds⟩ := ih behind (Nat.succ.inj all) others
      have lead := lead_of_isLead (Bool.and_eq_true_iff.mp inner).1
      refine ⟨hs ++ (leadLexemes s ++ ls), ?_, fun opened => ?_⟩
      · exact piece.append (lead.append_piece further) (halts_of_isInner inner _)
      · rw [levels, List.map_append, nesting_append, funext kinds, ← nesting_append]
        rfl

/-- A frame with fillers is a piece that leads from some open brackets to others. -/
theorem piece_of_frame (frame : isFrame first fixed opened closed = true)
    (all : fillers.length = fixed.length) (each : ∀ h ∈ fillers, IsFiller h) :
    ∃ ls, Piece (fill first fillers fixed) (leadLexemes first ++ ls) ∧
      nesting opened ((leadLexemes first ++ ls).map Lexeme.kind) = some closed := by
  simp only [isFrame, Bool.and_eq_true, Bool.or_eq_true, decide_eq_true_eq] at frame
  obtain ⟨⟨start, behind⟩, whole⟩ := frame
  obtain ⟨ls, piece, kinds⟩ := piece_behind behind all each
  refine ⟨ls, ?_, ?_⟩
  · rcases start with empty | lead
    · obtain rfl : first = "" := String.isEmpty_iff.mp empty
      have none : leadLexemes "" = [] := rfl
      simpa [fill, none] using piece
    · exact (lead_of_isLead lead).append_piece piece
  · rw [List.map_append, nesting_append, funext kinds, ← nesting_append]
    exact whole

theorem isFiller_of_frame (frame : isFrame first fixed [] [] = true)
    (all : fillers.length = fixed.length) (each : ∀ h ∈ fillers, IsFiller h) :
    IsFiller (fill first fillers fixed) := by
  obtain ⟨ls, piece, level⟩ := piece_of_frame frame all each
  exact ⟨_, piece, level⟩

/-- Fillers with commas between them are a filler. -/
theorem isFiller_commaList {items : List String} (each : ∀ s ∈ items, IsFiller s) :
    IsFiller (commaList items) := by
  refine commaList_induction ⟨[], piece_empty, .nil⟩ (fun s t first second => ?_) each
  exact isFiller_of_frame rfl rfl (by simp [first, second])

end

/-! ## Lines -/

/-- Lines with the values in them lead from some open brackets to others. -/
def Code (unit : String) (lines : List Line) (vs : List (List Token))
    (opened closed : List Bracket) : Prop :=
  ∃ ls, AllWoven (lines.map (Line.render unit)) ls vs ∧
    nesting opened (ls.map Lexeme.kind) = some closed

/-- Lines that stand between braces by themselves. -/
def Body (unit : String) (lines : List Line) : Prop :=
  ∃ ls, AllWoven (lines.map (Line.render unit)) ls [] ∧ IsLevel (ls.map Lexeme.kind) ∧ IsMild ls

/-- A line that opens some brackets, and no observer at its front. -/
def Opens (unit : String) (line : Line) (opened : List Bracket) : Prop :=
  ∃ l ls, Woven (line.render unit) (l :: ls) [] ∧
    nesting [] ((l :: ls).map Lexeme.kind) = some opened ∧ l.opensObserver = false

theorem Grammar.IsMild.append {ls ms : List Lexeme} (first : IsMild ls) (second : IsMild ms) :
    IsMild (ls ++ ms) := by
  cases ls with
  | nil => exact second
  | cons l ls => exact first

section
variable {unit s : String} {depth : Nat} {ls : List Lexeme} {vs ws : List (List Token)}
  {lines more : List Line} {line : Line} {opened middle closed : List Bracket}

/-- A fixed text without numbers is a piece. -/
theorem piece_of_isNear (near : isNear s.toList = true)
    (numbers : ∀ l ∈ lexemesIn s.toList, l.kind ≠ .number) : Piece s (lexemesIn s.toList) := by
  obtain ⟨lexes, chars, quiet⟩ := near_of_isNear near
  exact ⟨fun w halts => lexes.relocate_near chars halts
    (fun l mem is => absurd is (numbers l mem)) (by simp [StartsPlain]), quiet⟩

/-- A fixed text is lexed at the end of a line. -/
theorem woven_of_isNear (near : isNear s.toList = true) : Woven s (lexemesIn s.toList) [] := by
  obtain ⟨lexes, chars, quiet⟩ := near_of_isNear near
  refine .of_quiet (fun w breaks => ?_) quiet
  exact lexes.relocate_near chars breaks.halts (fun _ _ _ => breaks.head?_ne_dot)
    (by simp [StartsPlain])

theorem lead_of_fixed (fixed : isLead s = true ∧ leadLexemes s = ls) : Lead s ls :=
  fixed.2 ▸ lead_of_isLead fixed.1

theorem woven_of_fixed (fixed : isNear s.toList = true ∧ lexemesIn s.toList = ls) : Woven s ls [] :=
  fixed.2 ▸ woven_of_isNear fixed.1

theorem Code.append (first : Code unit lines vs opened middle)
    (second : Code unit more ws middle closed) :
    Code unit (lines ++ more) (vs ++ ws) opened closed := by
  obtain ⟨ls, woven, nests⟩ := first
  obtain ⟨ms, further, closes⟩ := second
  refine ⟨ls ++ ms, by simpa using woven.append further, ?_⟩
  rw [List.map_append, nesting_append, nests]
  exact closes

theorem Code.frame (h : Code unit lines vs opened closed) (below : List Bracket) :
    Code unit lines vs (opened ++ below) (closed ++ below) := by
  obtain ⟨ls, woven, nests⟩ := h
  exact ⟨ls, woven, nesting_frame nests below⟩

theorem Code.nil : Code unit [] [] opened opened := ⟨[], .nil, rfl⟩

namespace Body

theorem nil : Body unit [] := ⟨[], .nil, .nil, by simp [IsMild]⟩

theorem blank : Body unit [.blank] := ⟨[], .single .empty, .nil, by simp [IsMild]⟩

theorem append (first : Body unit lines) (second : Body unit more) : Body unit (lines ++ more) := by
  obtain ⟨ls, woven, level, mild⟩ := first
  obtain ⟨ms, further, level', mild'⟩ := second
  refine ⟨ls ++ ms, by simpa using woven.append further, ?_, mild.append mild'⟩
  rw [List.map_append]
  exact level.append level'

theorem flatMap {α : Type} {print : α → List Line} {as : List α}
    (each : ∀ a ∈ as, Body unit (print a)) : Body unit (as.flatMap print) := by
  induction as with
  | nil => exact .nil
  | cons a as ih =>
    rw [List.flatMap_cons]
    exact (each a List.mem_cons_self).append (ih fun b mem => each b (List.mem_cons_of_mem a mem))

theorem code (h : Body unit lines) (opened : List Bracket) : Code unit lines [] opened opened := by
  obtain ⟨ls, woven, level, -⟩ := h
  exact ⟨ls, woven, level.nesting_eq opened⟩

end Body

/-- A line that opens brackets in front of lines that close them. -/
theorem Opens.body (first : Opens unit line opened) (others : Code unit more [] opened []) :
    Body unit (line :: more) := by
  obtain ⟨l, ls, woven, opens, mild⟩ := first
  obtain ⟨ms, further, closes⟩ := others
  refine ⟨l :: ls ++ ms, .cons woven further, ?_, ?_⟩
  · rw [IsLevel, List.map_append, nesting_append, opens]
    exact closes
  · intro m head
    rw [← Option.some.inj head]
    exact mild

/-! ## Single lines -/

theorem Settings.spaces (s : Settings) : ∀ c ∈ s.indentUnit.toList, isSpace c = true := by
  intro c mem
  rw [indentUnit, String.toList_ofList] at mem
  rw [List.eq_of_mem_replicate mem]
  rfl

variable (spaces : ∀ c ∈ unit.toList, isSpace c = true)
include spaces

theorem lead_indentation (depth : Nat) : Lead (String.join (List.replicate depth unit)) [] := by
  refine lead_of_blanks fun c mem => ?_
  rw [String.toList_join] at mem
  obtain ⟨t, inside, here⟩ := List.mem_flatMap.mp mem
  exact spaces c (List.eq_of_mem_replicate inside ▸ here)

theorem woven_text (h : Woven s ls vs) : Woven ((Line.text depth s).render unit) ls vs :=
  (lead_indentation spaces depth).append_woven h

/-- A line is lexed alike at any depth. -/
theorem allWoven_nest (h : AllWoven (lines.map (Line.render unit)) ls vs) :
    AllWoven ((nest lines).map (Line.render unit)) ls vs := by
  induction lines generalizing ls vs with
  | nil => exact h
  | cons l lines ih =>
    cases h with
    | cons first others =>
      refine .cons ?_ (ih others)
      cases l with
      | blank => exact first
      | text depth s =>
        rw [Line.render_nested_text]
        simpa using (lead_of_blanks spaces).append_woven first

section
variable {first : String} {fillers fixed : List String}

theorem code_of_frame (frame : isFrame first fixed opened closed = true)
    (all : fillers.length = fixed.length) (each : ∀ h ∈ fillers, IsFiller h) :
    Code unit [.text depth (fill first fillers fixed)] [] opened closed := by
  obtain ⟨ls, piece, nests⟩ := piece_of_frame frame all each
  exact ⟨_, .single (woven_text spaces piece.woven), nests⟩

theorem opens_of_frame (frame : isOpening first fixed opened = true)
    (all : fillers.length = fixed.length) (each : ∀ h ∈ fillers, IsFiller h) :
    Opens unit (.text depth (fill first fillers fixed)) opened := by
  obtain ⟨frame, mild⟩ := Bool.and_eq_true_iff.mp frame
  obtain ⟨ls, piece, nests⟩ := piece_of_frame frame all each
  cases lexemes : leadLexemes first with
  | nil =>
    rw [lexemes] at mild
    cases mild
  | cons m ms =>
    rw [lexemes] at piece nests mild
    exact ⟨m, ms ++ ls, woven_text spaces piece.woven, nests, by simpa using mild⟩

end

theorem code_of_fixed (fixed : isFixed s opened closed = true) :
    Code unit [.text depth s] [] opened closed := by
  obtain ⟨near, nests⟩ := Bool.and_eq_true_iff.mp fixed
  exact ⟨_, .single (woven_text spaces (woven_of_isNear near)), of_decide_eq_true nests⟩

theorem opens_of_fixed (fixed : isFixedOpening s opened = true) :
    Opens unit (.text depth s) opened := by
  obtain ⟨fixed, mild⟩ := Bool.and_eq_true_iff.mp fixed
  obtain ⟨near, nests⟩ := Bool.and_eq_true_iff.mp fixed
  have nests := of_decide_eq_true nests
  have woven : Woven ((Line.text depth s).render unit) (lexemesIn s.toList) [] :=
    woven_text spaces (woven_of_isNear near)
  cases lexemes : lexemesIn s.toList with
  | nil =>
    rw [lexemes] at mild
    cases mild
  | cons l ls =>
    rw [lexemes] at woven nests mild
    exact ⟨l, ls, woven, nests, by simpa using mild⟩

end

end Conformance
