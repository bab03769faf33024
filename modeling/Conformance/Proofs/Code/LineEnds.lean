import Conformance.Code.Extension
import Conformance.Proofs.Code.Steady

/-!
# Ends of lines

A literal in generated code ends its line.  It is one token there, if the lines above it and the
start of its own are lexed to their ends (`Line.endsInString`).

Lines are put together in a few ways: some behind others, deeper by one level, or with a blank one
between them.  A line among them keeps its end, and the lines above it stay steady (`EndsAt`).
-/

namespace Conformance

open Pattern Lexical

/-! ## Lines as text -/

namespace Line

/-- A line ends in a text that is one token, a string.  It is so wherever the lines stand: behind
anything that is lexed to its end, and at the end of the code or in front of a line feed. -/
def EndsInString (unit : String) (lines : List Line) (i : Nat) (literal : String) : Prop :=
  ∃ before, renderAll unit (lines.take (i + 1)) = before ++ literal ∧
    ∀ front behind : String, IsReady front → (∀ c ∈ behind.toList.head?, c = '\n') →
      ∃ layout, ⟨.string, layout, literal, Position.origin.advance (front ++ before).toList,
        Position.origin.advance (front ++ before ++ literal).toList⟩ ∈
          (lex (front ++ renderAll unit lines ++ behind).toList).tokens

theorem renderAll_cons_cons (unit : String) (l m : Line) (ls : List Line) :
    renderAll unit (l :: m :: ls) = l.render unit ++ "\n" ++ renderAll unit (m :: ls) :=
  String.intercalate_cons_cons

/-- The text of a line in the text of all. -/
theorem renderAll_append_cons (unit : String) (above : List Line) (l : Line) (below : List Line) :
    renderAll unit (above ++ l :: below) =
      String.join (above.map fun a => a.render unit ++ "\n") ++
        (l.render unit ++ String.join (below.map fun b => "\n" ++ b.render unit)) := by
  induction above with
  | nil =>
    rw [List.nil_append, List.map_nil, String.join_nil, String.empty_append]
    induction below generalizing l with
    | nil => simp [renderAll]
    | cons b below ih =>
      rw [renderAll_cons_cons, ih, List.map_cons, String.join_cons]
      simp only [String.append_assoc]
  | cons a above ih =>
    have first : renderAll unit (a :: above ++ l :: below) =
        a.render unit ++ "\n" ++ renderAll unit (above ++ l :: below) := by
      cases above <;> exact renderAll_cons_cons ..
    rw [first, ih, List.map_cons, String.join_cons]
    simp only [String.append_assoc]

/-- Lines with a blank one between them. -/
theorem renderAll_blank (unit : String) {lines more : List Line} (some : lines ≠ [])
    (others : more ≠ []) : renderAll unit (lines ++ .blank :: more) =
      renderAll unit lines ++ "\n\n" ++ renderAll unit more := by
  have two : "\n\n" = "\n" ++ "\n" := rfl
  induction lines with
  | nil => contradiction
  | cons l lines ih =>
    cases lines with
    | nil =>
      obtain ⟨m, more, rfl⟩ := List.exists_cons_of_ne_nil others
      have single : renderAll unit [l] = l.render unit := by simp [renderAll]
      have blank : blank.render unit = "" := rfl
      rw [List.singleton_append, renderAll_cons_cons, renderAll_cons_cons, single, blank, two]
      simp only [String.empty_append, String.append_assoc]
    | cons k lines =>
      have further := ih (List.cons_ne_nil _ _)
      rw [List.cons_append] at further ⊢
      rw [List.cons_append, renderAll_cons_cons, further, renderAll_cons_cons]
      simp only [String.append_assoc]

/-- All of some lines are steady. -/
def AllSteady (unit : String) (lines : List Line) : Prop := ∀ l ∈ lines, IsSteady (l.render unit)

variable {unit : String} {l : Line} {lines : List Line}

/-- The lexer comes to the end of steady lines. -/
theorem AllSteady.ready_above (steady : AllSteady unit lines) :
    IsReady (String.join (lines.map fun l => l.render unit ++ "\n")) := by
  induction lines with
  | nil => exact ⟨[], fun _ => .done⟩
  | cons l lines ih =>
    obtain ⟨here, others⟩ := List.forall_mem_cons.mp steady
    rw [List.map_cons, String.join_cons]
    exact (here.append_lead rfl).append (ih others)

variable (spaces : ∀ c ∈ unit.toList, isSpace c = true) {depth i : Nat} {s start : String}
include spaces

theorem steady_text (h : IsSteady s) : IsSteady ((text depth s).render unit) :=
  (lead_indentation spaces depth).ready.append_steady h

theorem AllSteady.nest (h : AllSteady unit lines) : AllSteady unit (nest lines) := by
  refine List.forall_mem_map.mpr fun l mem => ?_
  have here := h l mem
  cases l with
  | blank => exact here
  | text depth s =>
    rw [render_nested_text]
    exact (lead_of_blanks spaces).ready.append_steady here

/-- A line of fixed texts and steady ones. -/
theorem steady_of_fill {s : String} (first : String) (fillers fixed : List String)
    (whole : s = fill first fillers fixed) (start : (first.isEmpty || isLead first) = true)
    (frame : areBehind fixed = true) (all : fillers.length = fixed.length)
    (each : ∀ h ∈ fillers, IsSteady h) : IsSteady ((text depth s).render unit) :=
  steady_text spaces (whole ▸ isSteady_fill start frame all each)

/-- A fixed line. -/
theorem steady_of_lead {s : String} (lead : isLead s = true) :
    IsSteady ((text depth s).render unit) :=
  steady_text spaces (isReady_of_isLead lead).steady

/-- Only one fixed line. -/
theorem allSteady_of_lead {s : String} (lead : isLead s = true) :
    AllSteady unit [text depth s] :=
  List.forall_mem_singleton.mpr (steady_of_lead spaces lead)

/-- Where a line ends in the literal of a text, the literal is one token if the lines above are
steady and the start of its own is ready. -/
theorem endsInString {cs : List Char} (oneLine : '\n' ∉ cs)
    (line : lines[i]? = some (text depth (start ++ stringLiteral cs))) (ready : IsReady start)
    (above : AllSteady unit (lines.take i)) :
    EndsInString unit lines i (stringLiteral cs) := by
  obtain ⟨inside, eq⟩ := List.getElem?_eq_some_iff.mp line
  have split : lines = lines.take i ++ text depth (start ++ stringLiteral cs) ::
      lines.drop (i + 1) := by
    rw [← eq, List.getElem_cons_drop, List.take_append_drop]
  have upTo : lines.take (i + 1) =
      lines.take i ++ text depth (start ++ stringLiteral cs) :: [] := by
    rw [List.take_add_one, line, Option.toList_some]
  let before := String.join ((lines.take i).map fun a => a.render unit ++ "\n") ++
    (String.join (List.replicate depth unit) ++ start)
  let below := String.join ((lines.drop (i + 1)).map fun b => "\n" ++ b.render unit)
  have reached : IsReady before :=
    above.ready_above.append ((lead_indentation spaces depth).ready.append ready)
  refine ⟨before, ?_, fun front behind first last => ?_⟩
  · rw [upTo, renderAll_append_cons, render]
    simp only [before, List.map_nil, String.join_nil, String.append_empty, String.append_assoc]
  · have whole : front ++ renderAll unit lines ++ behind =
        front ++ before ++ stringLiteral cs ++ (below ++ behind) := by
      rw [split, renderAll_append_cons, render]
      simp only [before, below, String.append_assoc]
    have feed : ∀ c ∈ (below ++ behind).toList.head?, c = '\n' := by
      intro c head
      cases lower : lines.drop (i + 1) with
      | nil => exact last c (by simpa [below, lower] using head)
      | cons b lower' => simpa [below, lower, eq_comm] using head
    rw [whole]
    exact (first.append reached).exists_string oneLine fun c head => by
      rw [feed c head]
      decide

end Line

/-! ## Literals among lines -/

/-- A line ends in a text behind its start, and the lines above it are steady if that holds which
they take for granted. -/
structure EndsAt (given : Prop) (unit : String) (lines : List Line) (i : Nat)
    (start literal : String) : Prop where
  /-- The line. -/
  line : ∃ depth, lines[i]? = some (.text depth (start ++ literal))
  /-- The lines above it. -/
  above : given → Line.AllSteady unit (lines.take i)

namespace EndsAt

variable {given : Prop} {unit start literal : String} {lines front behind : List Line}
  {i depth : Nat}

theorem here : EndsAt given unit (.text depth (start ++ literal) :: behind) 0 start literal :=
  ⟨⟨depth, rfl⟩, fun _ => List.forall_mem_nil _⟩

theorem below (h : EndsAt given unit lines i start literal)
    (steady : given → Line.AllSteady unit front) :
    EndsAt given unit (front ++ lines) (front.length + i) start literal where
  line := by
    obtain ⟨depth, line⟩ := h.line
    refine ⟨depth, ?_⟩
    rw [List.getElem?_append_right (Nat.le_add_right ..), Nat.add_sub_cancel_left, line]
  above is := by
    rw [List.take_length_add_append]
    exact List.forall_mem_append.mpr ⟨steady is, h.above is⟩

theorem append (h : EndsAt given unit lines i start literal) (behind : List Line) :
    EndsAt given unit (lines ++ behind) i start literal := by
  obtain ⟨depth, line⟩ := h.line
  obtain ⟨inside, -⟩ := List.getElem?_eq_some_iff.mp line
  refine ⟨⟨depth, by rw [List.getElem?_append_left inside, line]⟩, fun is => ?_⟩
  rw [List.take_append_of_le_length (Nat.le_of_lt inside)]
  exact h.above is

theorem nest (spaces : ∀ c ∈ unit.toList, isSpace c = true)
    (h : EndsAt given unit lines i start literal) :
    EndsAt given unit (nest lines) i start literal where
  line := by
    obtain ⟨depth, line⟩ := h.line
    exact ⟨depth + 1, by rw [Conformance.nest, List.getElem?_map, line]; rfl⟩
  above is := by
    rw [Conformance.nest, ← List.map_take]
    exact (h.above is).nest spaces

/-- The first of several members with blank lines between them. -/
theorem first (h : EndsAt given unit lines i start literal) (members : List (List Line)) :
    EndsAt given unit (Extension.separated (lines :: members)) i start literal := by
  cases members with
  | nil => exact h
  | cons ls members => exact h.append _

/-- The last of several members with blank lines between them, where the others are steady. -/
theorem separated {members : List (List Line)} (h : EndsAt given unit lines i start literal)
    (steady : given → ∀ ls ∈ members, Line.AllSteady unit ls) :
    ∃ j, EndsAt given unit (Extension.separated (members ++ [lines])) j start literal := by
  induction members with
  | nil => exact ⟨i, h⟩
  | cons ls members ih =>
    obtain ⟨j, further⟩ := ih fun is => (List.forall_mem_cons.mp (steady is)).2
    have more : Extension.separated (ls :: members ++ [lines]) =
        (ls ++ [.blank]) ++ Extension.separated (members ++ [lines]) := by
      cases members <;> simp [Extension.separated]
    have blank : IsSteady (Line.blank.render unit) := piece_empty.steady
    rw [more]
    refine ⟨_, further.below fun is => List.forall_mem_append.mpr ⟨?_, ?_⟩⟩
    · exact (List.forall_mem_cons.mp (steady is)).1
    · exact List.forall_mem_singleton.mpr blank

end EndsAt

end Conformance
