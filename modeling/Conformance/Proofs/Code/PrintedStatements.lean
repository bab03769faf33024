import Conformance.Code.Statement
import Conformance.Proofs.Code.Printed

/-!
# Printed statements

Statements are printed as lines that stand between braces by themselves, if the texts that are
put into them are fillers (`Statement.body_lines`).  A type that is named in a literal is a plain
name, and so is a function that begins a line.
-/

namespace Conformance

open Pattern Lexical Grammar

/-! ## What is put into statements -/

/-- What is put in for a value that is decoded. -/
def Decoded.Prints (d : Decoded) : Prop := IsFiller d.name ∧ IsFiller d.type ∧ IsFiller d.key

/-- What is put in for a pattern. -/
def CasePattern.Prints (p : CasePattern) : Prop := IsFiller p.name ∧ ∀ b ∈ p.bound, IsFiller b

/-- What is put in for a construction. -/
def Construction.Prints (c : Construction) : Prop :=
  IsFiller c.name ∧ ∀ a ∈ c.arguments.getD [], (∀ l ∈ a.1, IsFiller l) ∧ IsFiller a.2

/-- What is put in for a step. -/
def Step.Prints : Step → Prop
  | blank | openWriting _ | openReading _ | returnTrue | requireSameName | startHash
  | returnHash => True
  | encode _ value key => IsFiller value ∧ IsFiller key
  | encodeNil key | decodeNil key => IsFiller key
  | openInnerWriting keys key | openInnerReading keys key => IsFiller keys ∧ IsFiller key
  | decode value => value.Prints
  | decodeInner values | delegate values => ∀ d ∈ values, d.Prints
  | become value => value.Prints
  | reject type => IsPlainName type
  | returnEqual pairs => ∀ p ∈ pairs, IsFiller p.1 ∧ IsFiller p.2
  | requireRight pattern => pattern.Prints
  | requireEqual left right => IsFiller left ∧ IsFiller right
  | feed value => IsFiller value
  | mix combine value property => (IsPlainName combine ∧ combine ≠ "willSet" ∧ combine ≠ "didSet") ∧
      IsFiller value ∧ IsFiller property

/-- What is put in for a statement. -/
def Statement.Prints : Statement → Prop
  | step s => s.Prints
  | switch subject arms _ =>
    IsFiller subject ∧ ∀ a ∈ arms, a.pattern.Prints ∧ ∀ s ∈ a.body, s.Prints
  | returnName texts => ∀ p ∈ texts, IsFiller p.1 ∧ IsFiller p.2
  | requireOneKey type => IsPlainName type

/-! ## Phrases -/

theorem CasePattern.Prints.isFiller {p : CasePattern} (h : p.Prints) : IsFiller p.text := by
  obtain ⟨name, bound⟩ := h
  have bindings : IsFiller p.bindings := by
    refine isFiller_commaList fun s mem => ?_
    obtain ⟨b, inside, rfl⟩ := List.mem_map.mp mem
    have line : "let " ++ b = fill "let " [b] [""] := by simp [fill]
    rw [line]
    exact isFiller_of_frame rfl rfl (by simpa using bound b inside)
  unfold text
  split
  · have line : "." ++ p.name = fill "." [p.name] [""] := by simp [fill]
    rw [line]
    exact isFiller_of_frame rfl rfl (by simpa using name)
  · have line : "." ++ p.name ++ "(" ++ p.bindings ++ ")" =
        fill "." [p.name, p.bindings] ["(", ")"] := by
      simp [fill, String.append_assoc]
    rw [line]
    exact isFiller_of_frame rfl rfl (by simp [name, bindings])

theorem Construction.Prints.isFiller {c : Construction} (h : c.Prints) : IsFiller c.text := by
  obtain ⟨name, arguments⟩ := h
  have list : IsFiller c.argumentList := by
    refine isFiller_commaList fun s mem => ?_
    obtain ⟨⟨label, value⟩, inside, rfl⟩ := List.mem_map.mp mem
    obtain ⟨labelled, is⟩ := arguments _ inside
    cases label with
    | none => exact is
    | some label =>
      have line : argument (some label, value) = fill "" [label, value] [": ", ""] := by
        simp [argument, fill, String.append_assoc]
      rw [line]
      exact isFiller_of_frame rfl rfl (by simp [labelled, is])
  unfold text
  split
  · have line : "." ++ c.name = fill "." [c.name] [""] := by simp [fill]
    rw [line]
    exact isFiller_of_frame rfl rfl (by simpa using name)
  · have line : "." ++ c.name ++ "(" ++ c.argumentList ++ ")" =
        fill "." [c.name, c.argumentList] ["(", ")"] := by
      simp [fill, String.append_assoc]
    rw [line]
    exact isFiller_of_frame rfl rfl (by simp [name, list])

theorem isFiller_storeName (s : Store) : IsFiller s.name := by
  have plain : IsPlainName s.name := by cases s <;> decide
  exact plain.isFiller

theorem Decoded.Prints.isFiller {d : Decoded} (h : d.Prints) (s : Store) :
    IsFiller (d.expression s) := by
  obtain ⟨-, type, key⟩ := h
  have line : d.expression s = fill "try " [s.name, d.type, d.key]
      [".decode(", ".self, forKey: .", ")"] := by
    simp [expression, fill, String.append_assoc]
  rw [line]
  exact isFiller_of_frame rfl rfl (by simp [isFiller_storeName, type, key])

/-- What an error says when no value of a type can be decoded. -/
def reason (type : String) : List Char :=
  ("Unable to decode " ++ type ++ ": no valid case found.").toList

/-- The literal that is put into the code for it, with the name of the type as it is. -/
def rejection (type : String) : String :=
  "\"Unable to decode " ++ type ++ ": no valid case found.\""

theorem reason_eq (type : String) : reason type =
    "Unable to decode ".toList ++ type.toList ++ ": no valid case found.".toList := by
  rw [reason, String.toList_append, String.toList_append]

/-- The literal is what is to be said, between quotes. -/
theorem rejection_eq (type : String) :
    rejection type = String.ofList ('"' :: (reason type ++ ['"'])) := by
  have opening : "\"Unable to decode " = "\"" ++ "Unable to decode " := rfl
  have closing : ": no valid case found.\"" = ": no valid case found." ++ "\"" := rfl
  have whole : rejection type = "\"" ++ String.ofList (reason type) ++ "\"" := by
    unfold rejection reason
    rw [opening, closing, String.ofList_toList]
    simp only [String.append_assoc]
  rw [whole, ← String.toList_inj]
  generalize reason type = cs
  simp

theorem description_eq (type : String) :
    "debugDescription: \"Unable to decode " ++ type ++ ": no valid case found.\"" =
      "debugDescription: " ++ rejection type := by
  have split : "debugDescription: \"Unable to decode " =
      "debugDescription: " ++ "\"Unable to decode " := rfl
  unfold rejection
  rw [split]
  simp only [String.append_assoc]

/-- The literal of an error, with a plain name in it. -/
theorem isFiller_rejection {type : String} (plain : IsPlainName type) :
    IsFiller (rejection type) := by
  have part : ∀ c ∈ type.toList, isNamePart c = true := by
    obtain ⟨c, cs, chars, start, parts⟩ := plain.exists_cons
    rw [chars]
    exact List.forall_mem_cons.mpr ⟨isNamePart_of_isNameStart start, parts⟩
  have fixed : ∀ c ∈ "Unable to decode ".toList ++ ": no valid case found.".toList,
      c ≠ '"' ∧ c ≠ '\\' ∧ c ≠ '\n' ∧ c ≠ '*' :=
    List.all_iff_forall_prop.mp (by decide)
  have inside : IsLiteralText (reason type) := by
    rw [reason_eq]
    refine ⟨by simp, fun c mem => ?_⟩
    rcases List.mem_append.mp mem with mem | mem
    · rcases List.mem_append.mp mem with mem | mem
      · exact fixed c (List.mem_append_left _ mem)
      · have is := part c mem
        refine ⟨?_, ?_, ?_, ?_⟩ <;> rintro rfl <;> exact absurd is (by decide)
    · exact fixed c (List.mem_append_right _ mem)
  rw [rejection_eq]
  exact inside.isFiller

/-! ## Steps -/

section
variable {unit : String} (spaces : ∀ c ∈ unit.toList, isSpace c = true)
include spaces

variable {depth : Nat}

/-- A line of fixed texts and fillers. -/
theorem body_line {s : String} (first : String) (fillers fixed : List String)
    (text : s = fill first fillers fixed) (frame : isOpening first fixed [] = true)
    (all : fillers.length = fixed.length) (each : ∀ h ∈ fillers, IsFiller h) :
    Body unit [.text depth s] := by
  rw [text]
  exact (opens_of_frame spaces frame all each).body .nil

/-- A fixed line. -/
theorem body_fixed {s : String} (fixed : isFixedOpening s [] = true) : Body unit [.text depth s] :=
  (opens_of_fixed spaces fixed).body .nil

/-- Lines of fillers with commas behind all but the last. -/
theorem code_withCommas {items : List String} (each : ∀ s ∈ items, IsFiller s)
    (opened : List Bracket) :
    Code unit ((withCommas items).map (Line.text depth)) [] opened opened := by
  have line {s t : String} (filler : IsFiller s) (text : t = s ∨ t = s ++ ",") :
      Code unit [.text depth t] [] opened opened := by
    have framed : t = fill "" [s] [""] ∨ t = fill "" [s] [","] :=
      text.imp (by rintro rfl; simp [fill]) (by rintro rfl; simp [fill])
    have level : Code unit [.text depth t] [] [] [] := by
      rcases framed with rfl | rfl <;>
        exact code_of_frame spaces rfl rfl (by simpa using filler)
    exact level.frame opened
  induction items with
  | nil => exact .nil
  | cons s items ih =>
    obtain ⟨here, others⟩ := List.forall_mem_cons.mp each
    cases items with
    | nil => exact line here (.inl rfl)
    | cons t items => exact (line here (.inr rfl)).append (ih others)

/-- A closing bracket on a line of its own. -/
theorem code_close {s : String} {b : Bracket} (closes : isFixed s [b] [] = true)
    (opened : List Bracket) : Code unit [.text depth s] [] (b :: opened) opened := by
  have one : Code unit [.text depth s] [] [b] [] := code_of_fixed spaces closes
  exact one.frame opened

theorem body_reject {type : String} (plain : IsPlainName type) :
    Body unit ((Step.reject type).lines depth) := by
  have description : Code unit [.text (depth + 2) ("debugDescription: \"Unable to decode " ++ type ++
      ": no valid case found.\"")] [] [.paren, .paren] [.paren, .paren] := by
    have text : "debugDescription: " ++ rejection type =
        fill "debugDescription: " [rejection type] [""] := by
      simp [fill]
    rw [description_eq, text]
    exact code_of_frame spaces rfl rfl (by simpa using isFiller_rejection plain)
  have first : Opens unit (.text depth "throw DecodingError.dataCorrupted(") [.paren] :=
    opens_of_fixed spaces rfl
  have second : Code unit [.text (depth + 1) "DecodingError.Context("] [] [.paren]
      [.paren, .paren] :=
    code_of_fixed spaces rfl
  have third : Code unit [.text (depth + 2) "codingPath: container.codingPath,"] []
      [.paren, .paren] [.paren, .paren] :=
    code_of_fixed spaces rfl
  have close {depth : Nat} (opened : List Bracket) :
      Code unit [.text depth ")"] [] (.paren :: opened) opened :=
    code_close spaces rfl opened
  exact first.body (second.append (third.append (description.append ((close _).append (close _)))))

/-- A call with its arguments on lines of their own. -/
theorem body_call {s : String} {items : List String} (first : Opens unit (.text depth s) [.paren])
    (each : ∀ s ∈ items, IsFiller s) :
    Body unit (.text depth s :: (withCommas items).map (Line.text (depth + 1)) ++
      [.text depth ")"]) := by
  have close : Code unit [.text depth ")"] [] [.paren] [] :=
    code_close spaces rfl []
  exact first.body ((code_withCommas spaces each _).append close)

theorem body_decodeInner {values : List Decoded} (prints : ∀ d ∈ values, d.Prints) :
    Body unit ((Step.decodeInner values).lines depth) := by
  have names : IsFiller (commaList (values.map Decoded.name)) :=
    isFiller_commaList (List.forall_mem_map.mpr fun d mem => (prints d mem).1)
  have types : IsFiller (commaList (values.map Decoded.type)) :=
    isFiller_commaList (List.forall_mem_map.mpr fun d mem => (prints d mem).2.1)
  have first : Opens unit (.text depth (fill "let (" [commaList (values.map Decoded.name),
      commaList (values.map Decoded.type)] ["): (", ") = ("])) [.paren] :=
    opens_of_frame spaces rfl rfl (by simp [names, types])
  have whole := body_call spaces first
    (List.forall_mem_map.mpr fun d mem => (prints d mem).isFiller .inner)
  simpa [Step.lines, fill, String.append_assoc] using whole

theorem body_delegate {fields : List Decoded} (prints : ∀ d ∈ fields, d.Prints) :
    Body unit ((Step.delegate fields).lines depth) := by
  cases fields with
  | nil => exact body_fixed spaces rfl
  | cons d ds =>
    have first : Opens unit (.text depth "self.init(") [.paren] :=
      opens_of_fixed spaces rfl
    refine body_call spaces first (List.forall_mem_map.mpr fun d mem => ?_)
    have line : d.name ++ ": " ++ d.expression .outer =
        fill "" [d.name, d.expression .outer] [": ", ""] := by
      simp [fill, String.append_assoc]
    rw [line]
    exact isFiller_of_frame rfl rfl
      (by simp [(prints d mem).1, (prints d mem).isFiller])

theorem body_returnEqual {pairs : List (String × String)}
    (prints : ∀ p ∈ pairs, IsFiller p.1 ∧ IsFiller p.2) :
    Body unit ((Step.returnEqual pairs).lines depth) := by
  cases pairs with
  | nil => exact body_fixed spaces rfl
  | cons p ps =>
    obtain ⟨here, others⟩ := List.forall_mem_cons.mp prints
    have first : Body unit [.text depth ("return " ++ p.1 ++ " == " ++ p.2)] :=
      body_line spaces "return " [p.1, p.2] [" == ", ""] (by simp [fill, String.append_assoc])
        rfl rfl (by simp [here])
    have further : Body unit
        (ps.map fun p => .text (depth + 1) ("&& " ++ p.1 ++ " == " ++ p.2)) := by
      rw [List.map_eq_flatMap]
      refine .flatMap fun p mem => ?_
      exact body_line spaces "&& " [p.1, p.2] [" == ", ""] (by simp [fill, String.append_assoc])
        rfl rfl (by simp [others p mem])
    exact first.append further

/-- The function that mixes hashes begins its line, so it must not open an observer. -/
theorem body_mix {combine value property : String}
    (prints : (Step.mix combine value property).Prints) :
    Body unit ((Step.mix combine value property).lines depth) := by
  obtain ⟨⟨plain, notWill, notDid⟩, is, under⟩ := prints
  have text : combine ++ "(&" ++ hashName ++ ", " ++ value ++ "." ++ property ++ ")" =
      combine ++ fill "(&hashValue, " [value, property] [".", ")"] := by
    have opening : "(&hashValue, " = "(&" ++ (hashName ++ ", ") := rfl
    simp only [opening, fill, List.zipWith, String.join_cons, String.join_nil,
      String.append_assoc, String.append_empty]
  obtain ⟨ls, piece, level⟩ : ∃ ls, Piece (fill "(&hashValue, " [value, property] [".", ")"])
      (leadLexemes "(&hashValue, " ++ ls) ∧ nesting [] _ = some [] :=
    piece_of_frame rfl rfl (by simp [is, under])
  have halts : Halts (fill "(&hashValue, " [value, property] [".", ")"]).toList := by
    rw [fill, String.toList_append]
    exact fun c mem => by
      obtain rfl : '(' = c := by simpa using mem
      rfl
  have woven := (plain.piece.append piece halts).woven
  rw [← text] at woven
  refine ⟨_, .single (woven_text spaces woven), ?_, ?_⟩
  · exact .cons (Kind.isBracket_ofWord combine) level
  · intro l mem
    obtain rfl := Option.some.inj mem
    simp [Lexeme.opensObserver, notWill, notDid]

theorem Step.body_lines (s : Step) (prints : s.Prints) : Body unit (s.lines depth) := by
  cases s with
  | blank => exact .blank
  | openWriting keep | openReading keep =>
    cases keep <;>
      exact body_fixed spaces rfl
  | returnTrue | startHash | returnHash =>
    exact body_fixed spaces rfl
  | encode store value key =>
    obtain ⟨is, under⟩ := prints
    exact body_line spaces "try " [store.name, value, key] [".encode(", ", forKey: .", ")"]
      (by simp [fill, String.append_assoc]) rfl rfl
      (by simp [isFiller_storeName, is, under])
  | encodeNil key =>
    exact body_line spaces "try container.encodeNil(forKey: ." [key] [")"]
      (by simp [fill, String.append_assoc]) rfl rfl
      (by simpa [Prints] using prints)
  | openInnerWriting keys key =>
    obtain ⟨is, under⟩ := prints
    exact body_line spaces "var nestedContainer = container.nestedContainer(keyedBy: " [keys, key]
      [".self, forKey: .", ")"] (by simp [fill, String.append_assoc]) rfl rfl (by simp [is, under])
  | openInnerReading keys key =>
    obtain ⟨is, under⟩ := prints
    exact body_line spaces "let nestedContainer = try container.nestedContainer(keyedBy: "
      [keys, key] [".self, forKey: .", ")"] (by simp [fill, String.append_assoc])
      rfl rfl (by simp [is, under])
  | decodeNil key =>
    exact body_line spaces "_ = try container.decodeNil(forKey: ." [key] [")"]
      (by simp [fill, String.append_assoc]) rfl rfl
      (by simpa [Prints] using prints)
  | decode value =>
    exact body_line spaces "let " [value.name, value.expression .outer] [" = ", ""]
      (by simp [fill, String.append_assoc]) rfl rfl
      (by simp [prints.1, prints.isFiller])
  | decodeInner values => exact body_decodeInner spaces prints
  | delegate fields => exact body_delegate spaces prints
  | returnEqual pairs => exact body_returnEqual spaces prints
  | mix => exact body_mix spaces prints
  | become value =>
    exact body_line spaces "self = " [value.text] [""] (by simp [fill]) rfl rfl
      (by simpa using prints.isFiller)
  | reject type => exact body_reject spaces prints
  | requireSameName =>
    have first : Opens unit (.text depth "guard lhs.caseName == rhs.caseName else \x7b") [.brace] :=
      opens_of_fixed spaces rfl
    have second : Code unit [.text (depth + 1) "return false"] [] [.brace] [.brace] :=
      code_of_fixed spaces rfl
    exact first.body (second.append (code_close spaces rfl []))
  | requireRight pattern =>
    exact body_line spaces "guard case " [pattern.text] [" = rhs else \x7b return false \x7d"]
      (by simp [fill, String.append_assoc]) rfl rfl
      (by simpa using prints.isFiller)
  | requireEqual left right =>
    obtain ⟨is, other⟩ := prints
    exact body_line spaces "guard " [left, right] [" == ", " else \x7b return false \x7d"]
      (by simp [fill, String.append_assoc]) rfl rfl
      (by simp [is, other])
  | feed value =>
    exact body_line spaces "hasher.combine(" [value] [")"] (by simp [fill, String.append_assoc])
      rfl rfl (by simpa [Prints] using prints)

/-! ## Statements -/

theorem Arm.body_lines (a : Arm) (pattern : a.pattern.Prints) (body : ∀ s ∈ a.body, s.Prints) :
    Body unit (a.lines depth) := by
  have label : Body unit [.text depth a.pattern.label] :=
    body_line spaces "case " [a.pattern.text] [":"]
      (by simp [CasePattern.label, fill, String.append_assoc])
      rfl rfl (by simpa using pattern.isFiller)
  exact label.append (.flatMap fun s mem => s.body_lines spaces (body s mem))

/-- Statements with fillers put in stand between braces by themselves. -/
theorem Statement.body_lines (s : Statement) (prints : s.Prints) : Body unit (s.lines depth) := by
  have close : Code unit [.text depth "\x7d"] [] [.brace] [] :=
    code_close spaces rfl []
  cases s with
  | step s => exact s.body_lines spaces prints
  | switch subject arms otherwise =>
    obtain ⟨is, each⟩ := prints
    have first : Opens unit (.text depth ("switch " ++ subject ++ " \x7b")) [.brace] := by
      have text : "switch " ++ subject ++ " \x7b" = fill "switch " [subject] [" \x7b"] := by
        simp [fill, String.append_assoc]
      rw [text]
      exact opens_of_frame spaces rfl rfl (by simpa using is)
    have inner : Body unit (arms.flatMap (Arm.lines depth)) :=
      .flatMap fun a mem => a.body_lines spaces (each a mem).1 (each a mem).2
    have fallback : Body unit (if otherwise then [.text depth "default:", .text (depth + 1) "break"]
        else []) := by
      have label : Body unit [.text depth "default:"] :=
        body_fixed spaces rfl
      have leave : Body unit [.text (depth + 1) "break"] :=
        body_fixed spaces rfl
      split
      · exact label.append leave
      · exact .nil
    have whole := first.body (((inner.append fallback).code [.brace]).append close)
    simpa [lines] using whole
  | returnName texts =>
    have first : Opens unit (.text depth "switch self \x7b") [.brace] :=
      opens_of_fixed spaces rfl
    have inner : Body unit
        (texts.map fun p => .text depth ("case ." ++ p.1 ++ ": return " ++ p.2)) := by
      rw [List.map_eq_flatMap]
      refine .flatMap fun p mem => ?_
      exact body_line spaces "case ." [p.1, p.2] [": return ", ""]
        (by simp [fill, String.append_assoc]) rfl rfl
        (by simp [prints p mem])
    exact first.body ((inner.code _).append close)
  | requireOneKey type =>
    have first : Opens unit (.text depth
        "guard container.allKeys.count == 1, let key = container.allKeys.first else \x7b")
        [.brace] :=
      opens_of_fixed spaces rfl
    exact first.body (((body_reject spaces prints).code _).append close)

end

end Conformance
