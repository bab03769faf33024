import Conformance.Proofs.Code.Literals
import Conformance.Proofs.Code.PrintedConformances
import Conformance.Proofs.Code.PrintedTypes

/-!
# Steady texts

Whether a token begins at a place of printed code is settled by what stands in front of it.  A
text is *steady* if it is lexed to its end in front of whatever begins with a blank or a mark, and
*ready* if it is so in front of anything.  The lexer comes to the end of a ready text and goes on
behind it as it would at the front of a source (`Lexes.exists_lexAt`).

Every word of a source is steady, and so is every literal.  A `Piece` is more than that: it reads
the same where something in front of it has opened a comment.  A back-quoted word may have the end
of a comment in it, so it need not be one.  But where all that stands in front is steady, no
comment is open.
-/

namespace Conformance

open Pattern Lexical

/-! ## Coming to the end of a text -/

/-- The lexer comes to the end of what is lexed in turns, if nothing goes on behind it. -/
theorem Lexes.exists_lexAt {a rest : List Char} {ls : List Lexeme} (stops : StopsRuns rest)
    (h : Lexes a ls rest) (p : Position) (layout : String) :
    ∃ ts gathered, (lexAt p layout (a ++ rest)).tokens =
      ts ++ (lexAt (p.advance a) gathered rest).tokens := by
  induction size : a.length using Nat.strong_induction_on generalizing a ls p layout with
  | _ n ih =>
    cases a with
    | nil => exact ⟨[], layout, rfl⟩
    | cons c cs =>
      obtain ⟨l, text, b, ms, whole, found, -, others⟩ := h.exists_round_before stops
      have positive := (front?_bounds found).1
      have shorter : b.length < n := by
        rw [← size, whole, List.length_append]
        omega
      rw [whole, List.append_assoc, Position.advance_append]
      cases kind : l.kind? text with
      | none =>
        rw [lexAt_layout found kind]
        exact ih _ shorter others _ _ rfl
      | some k =>
        rw [lexAt_token found kind]
        obtain ⟨ts, gathered, tokens⟩ := ih _ shorter others (p.advance text) "" rfl
        refine ⟨⟨k, layout, String.ofList text, p, p.advance text⟩ :: ts, gathered, ?_⟩
        exact congrArg (List.cons _) tokens

/-! ## Steady and ready texts -/

/-- A text that is lexed to its end in front of what begins with a blank or a mark. -/
def IsSteady (s : String) : Prop := ∃ ls, ∀ w, Halts w → Lexes s.toList ls w

/-- A text that is lexed to its end in front of anything. -/
def IsReady (s : String) : Prop := ∃ ls, ∀ w, Lexes s.toList ls w

section
variable {s t : String}

theorem Piece.steady {ls : List Lexeme} (h : Piece s ls) : IsSteady s := ⟨ls, h.lexes⟩

theorem Lead.ready {ls : List Lexeme} (h : Lead s ls) : IsReady s := ⟨ls, h.lexes⟩

theorem isReady_of_isLead (lead : isLead s = true) : IsReady s := (lead_of_isLead lead).ready

theorem IsReady.steady (h : IsReady s) : IsSteady s := h.imp fun _ lexes w _ => lexes w

theorem IsReady.append (first : IsReady s) (second : IsReady t) : IsReady (s ++ t) := by
  obtain ⟨ls, lexes⟩ := first
  obtain ⟨ms, behind⟩ := second
  refine ⟨ls ++ ms, fun w => ?_⟩
  rw [String.toList_append]
  exact (lexes _).append (behind w)

theorem IsReady.append_steady (first : IsReady s) (second : IsSteady t) : IsSteady (s ++ t) := by
  obtain ⟨ls, lexes⟩ := first
  obtain ⟨ms, behind⟩ := second
  refine ⟨ls ++ ms, fun w halts => ?_⟩
  rw [String.toList_append]
  exact (lexes _).append (behind w halts)

theorem IsSteady.append (first : IsSteady s) (second : IsSteady t) (halts : Halts t.toList) :
    IsSteady (s ++ t) := by
  obtain ⟨ls, lexes⟩ := first
  obtain ⟨ms, behind⟩ := second
  refine ⟨ls ++ ms, fun w halts' => ?_⟩
  rw [String.toList_append]
  exact (lexes _ (halts.append halts')).append (behind w halts')

/-- A steady text in front of one that begins with a blank or a mark and is ready. -/
theorem IsSteady.append_lead (first : IsSteady s) (inner : isInner t = true) :
    IsReady (s ++ t) := by
  obtain ⟨ls, lexes⟩ := first
  have lead := lead_of_isLead (Bool.and_eq_true_iff.mp inner).1
  refine ⟨ls ++ leadLexemes t, fun w => ?_⟩
  have halts := halts_of_isInner inner (String.ofList w)
  rw [String.toList_append, String.toList_ofList] at halts
  rw [String.toList_append]
  exact (lexes _ halts).append (lead.lexes w)

/-! ## Frames -/

variable {first : String} {fillers fixed : List String}

theorem isSteady_behind (frame : areBehind fixed = true) (all : fillers.length = fixed.length)
    (each : ∀ h ∈ fillers, IsSteady h) :
    IsSteady (String.join (List.zipWith (· ++ ·) fillers fixed)) := by
  induction fixed generalizing fillers with
  | nil =>
    obtain rfl := List.length_eq_zero_iff.mp all
    exact piece_empty.steady
  | cons s fixed ih =>
    obtain ⟨h, fillers, rfl⟩ := List.exists_cons_of_length_eq_add_one all
    obtain ⟨steady, others⟩ := List.forall_mem_cons.mp each
    rw [List.zipWith_cons_cons, String.join_cons]
    cases fixed with
    | nil =>
      obtain rfl := List.length_eq_zero_iff.mp (Nat.succ.inj all)
      rcases Bool.or_eq_true_iff.mp frame with empty | inner
      · obtain rfl : s = "" := String.isEmpty_iff.mp empty
        simpa using steady
      · simpa using (steady.append_lead inner).steady
    | cons t fixed =>
      obtain ⟨inner, behind⟩ := Bool.and_eq_true_iff.mp frame
      exact (steady.append_lead inner).append_steady (ih behind (Nat.succ.inj all) others)

/-- Fixed texts with steady ones put in are steady. -/
theorem isSteady_fill (start : (first.isEmpty || isLead first) = true)
    (frame : areBehind fixed = true) (all : fillers.length = fixed.length)
    (each : ∀ h ∈ fillers, IsSteady h) : IsSteady (fill first fillers fixed) := by
  have behind := isSteady_behind frame all each
  rcases Bool.or_eq_true_iff.mp start with empty | lead
  · obtain rfl : first = "" := String.isEmpty_iff.mp empty
    simpa [fill] using behind
  · exact (isReady_of_isLead lead).append_steady behind

/-- Steady texts with commas between them are steady. -/
theorem isSteady_commaList {items : List String} (each : ∀ s ∈ items, IsSteady s) :
    IsSteady (commaList items) := by
  refine commaList_induction piece_empty.steady (fun s t first second => ?_) each
  exact isSteady_fill rfl rfl rfl (by simp [first, second])

/-! ## Words and literals -/

theorem IsWord.steady (word : IsWord s) : IsSteady s := by
  obtain ⟨rest, matches'⟩ := word
  refine ⟨[⟨Kind.ofWord s, s⟩], fun w halts => ?_⟩
  have here : Pattern.name (s.toList ++ w) = some s.toList.length :=
    name_relocate matches' (Nat.le_refl _) halts
  have found : front? (s.toList ++ w) = some (.word, s.toList.length) := by
    obtain ⟨c, cs, chars⟩ := List.exists_cons_of_length_pos (name_bounds matches').1
    rw [chars, List.cons_append] at here ⊢
    have opens : opensWord c = true := by
      by_contra other
      rw [name_eq_none (Bool.eq_false_iff.mpr other)] at here
      cases here
    rw [front?_word opens, here]
    rfl
  have turn := Turn.token (k := Kind.ofWord s) found (by simp [Lexical.kind?]) (by simp)
  rw [String.ofList_toList] at turn
  exact .single turn

/-- A name that is all of a text is a word. -/
theorem IsOneName.isWord (h : IsOneName s) : IsWord s := by
  obtain ⟨clean, face⟩ := h
  obtain ⟨t, delivered, is⟩ := List.map_eq_singleton_iff.mp face
  obtain ⟨kind, rfl⟩ := Prod.mk.inj is
  exact isWord_of_infix clean (delivered ▸ List.infix_rfl) (by rw [kind]; rfl)

/-- A label behind a prefix is steady, also where it is a name of its own there. -/
theorem isSteady_boundName {before : String} (prefix' : before ∈ slotPrefixes) {s : Slot}
    (label : IsWord s.label ∨ IsPlain s.label) : IsSteady (Variant.boundName before s) := by
  by_cases plain : IsPlain s.label
  · exact (isPlainName_boundName prefix' plain).piece.steady
  · have word := label.resolve_right plain
    obtain ⟨ls, lexes⟩ := word.steady
    have each : ∀ b ∈ slotPrefixes, IsPlainName b := by decide
    refine ⟨[⟨Kind.ofWord before, before⟩] ++ ls, fun w halts => ?_⟩
    have calm : Calm (s.label.toList ++ w) := by
      have quoted : s.label.toList.head? = some '\x60' ∨ s.label.toList.head? = some '$' := by
        by_contra other
        exact plain (word.isPlain_iff.mpr (not_or.mp other))
      have head : ∃ c, (s.label.toList ++ w).head? = some c ∧ (c = '\x60' ∨ c = '$') := by
        rcases quoted with is | is <;> simp [List.head?_append, is]
      obtain ⟨c, is, rfl | rfl⟩ := head <;>
        exact ⟨fun d mem => by cases is.symm.trans mem; rfl,
          onlyAngles_of_head fun d mem => by cases is.symm.trans mem; rfl⟩
    rw [Variant.boundName, String.toList_append]
    exact ((each _ prefix').passage _ calm).append (lexes w halts)

/-- The literal of a text on one line is steady. -/
theorem isSteady_stringLiteral {cs : List Char} (oneLine : '\n' ∉ cs) :
    IsSteady (stringLiteral cs) := by
  refine ⟨[⟨.string, stringLiteral cs⟩], fun w behind => ?_⟩
  have other : ∀ c ∈ w.head?, c ≠ '#' ∧ c ≠ '"' := by
    intro c head
    constructor <;> rintro rfl <;> exact absurd (behind _ head) (by decide)
  have found := front?_stringLiteral oneLine other
  have turn := Turn.token (k := .string) found rfl (by simp)
  rw [String.ofList_toList] at turn
  exact .single turn

/-- Behind a ready text the literal of a text on one line is a token. -/
theorem IsReady.exists_string {before behind : String} {cs : List Char} (ready : IsReady before)
    (oneLine : '\n' ∉ cs) (other : ∀ c ∈ behind.toList.head?, c ≠ '#' ∧ c ≠ '"') :
    ∃ layout, ⟨.string, layout, stringLiteral cs, Position.origin.advance before.toList,
      Position.origin.advance (before ++ stringLiteral cs).toList⟩ ∈
        (lex (before ++ stringLiteral cs ++ behind).toList).tokens := by
  have found := front?_stringLiteral oneLine other
  have stops : StopsRuns ((stringLiteral cs).toList ++ behind.toList) := by
    intro c head
    obtain rfl : '"' = c := by simpa [stringLiteral] using head
    decide
  have whole : (before ++ stringLiteral cs ++ behind).toList =
      before.toList ++ ((stringLiteral cs).toList ++ behind.toList) := by
    rw [String.toList_append, String.toList_append, List.append_assoc]
  have stop : Position.origin.advance (before ++ stringLiteral cs).toList =
      (Position.origin.advance before.toList).advance (stringLiteral cs).toList := by
    rw [String.toList_append, Position.advance_append]
  obtain ⟨ls, lexes⟩ := ready
  obtain ⟨ts, gathered, tokens⟩ := (lexes _).exists_lexAt stops .origin ""
  have lexed : (lex (before ++ stringLiteral cs ++ behind).toList).tokens = _ := whole ▸ tokens
  refine ⟨gathered, ?_⟩
  rw [lexed, lexAt_token (k := .string) found rfl, String.ofList_toList, stop]
  exact List.mem_append_right _ List.mem_cons_self

end

end Conformance
