import Conformance.Generate
import Conformance.Proofs.Coding.Machine

/-!
# What generated text shows

Generated code is run by its data: by the bodies of functions and the cases of keys that are found
in an extension.  All of it stands in the text of the extension, each body below the header of its
function and each list of cases below the name of its enumeration (`Extension.standsIn_render`).

The text is in the blocks of the types that the extension is for, whatever else is generated for
them (`Nominal.IsProductOf`, `Nominal.IsSumOf`).
-/

namespace Conformance

/-! ## Lines in texts -/

/-- Lines stand in a text, each below the one before. -/
def StandIn (unit : String) (ls : List Line) (text : String) : Prop :=
  ∃ before behind, text = before ++ Line.renderAll unit ls ++ behind

theorem exists_intercalate_append (sep : String) (xs ys : List String) :
    ∃ behind, sep.intercalate (xs ++ ys) = sep.intercalate xs ++ behind := by
  induction xs with
  | nil => exact ⟨_, String.empty_append.symm⟩
  | cons x xs ih =>
    cases xs with
    | nil =>
      cases ys with
      | nil => exact ⟨"", String.append_empty.symm⟩
      | cons y ys =>
        refine ⟨sep ++ sep.intercalate (y :: ys), ?_⟩
        rw [List.singleton_append, String.intercalate_cons_cons, String.append_assoc]
        simp
    | cons x' xs =>
      obtain ⟨behind, is⟩ := ih
      refine ⟨behind, ?_⟩
      rw [List.cons_append, List.cons_append, String.intercalate_cons_cons, ← List.cons_append, is,
        String.intercalate_cons_cons]
      simp only [String.append_assoc]

theorem exists_append_intercalate (sep : String) (xs ys : List String) :
    ∃ before, sep.intercalate (xs ++ ys) = before ++ sep.intercalate ys := by
  induction xs with
  | nil => exact ⟨"", String.empty_append.symm⟩
  | cons x xs ih =>
    obtain ⟨before, is⟩ := ih
    cases rest : xs ++ ys with
    | nil =>
      obtain ⟨rfl, rfl⟩ := List.append_eq_nil_iff.mp rest
      exact ⟨x, by simp⟩
    | cons z zs =>
      refine ⟨x ++ sep ++ before, ?_⟩
      rw [List.cons_append, rest, String.intercalate_cons_cons, ← rest, is]
      simp only [String.append_assoc]

/-- Lines stand in the text of lines that they stand among. -/
theorem standIn_renderAll {unit : String} {ls lines : List Line} (inside : ls <:+: lines) :
    StandIn unit ls (Line.renderAll unit lines) := by
  obtain ⟨above, below, rfl⟩ := inside
  rw [StandIn, Line.renderAll, Line.renderAll, List.map_append, List.map_append]
  obtain ⟨behind, is⟩ := exists_intercalate_append "\n"
    (above.map (Line.render unit) ++ ls.map (Line.render unit)) (below.map (Line.render unit))
  obtain ⟨before, is'⟩ := exists_append_intercalate "\n" (above.map (Line.render unit))
    (ls.map (Line.render unit))
  exact ⟨before, behind, by rw [is, is']⟩

/-- What stands in one of some texts stands in the texts joined. -/
theorem StandIn.joined {unit text : String} {ls : List Line} (h : StandIn unit ls text)
    {sep : String} {texts : List String} (mem : text ∈ texts) :
    StandIn unit ls (sep.intercalate texts) := by
  obtain ⟨before, behind, rfl⟩ := h
  obtain ⟨front, rest, rfl⟩ := List.append_of_mem mem
  have split : front ++ (before ++ Line.renderAll unit ls ++ behind) :: rest =
      (front ++ [before ++ Line.renderAll unit ls ++ behind]) ++ rest := by simp
  obtain ⟨more, is⟩ := exists_intercalate_append sep
    (front ++ [before ++ Line.renderAll unit ls ++ behind]) rest
  obtain ⟨above, is'⟩ := exists_append_intercalate sep front
    [before ++ Line.renderAll unit ls ++ behind]
  refine ⟨above ++ before, behind ++ more, ?_⟩
  rw [split, is, is', String.intercalate_singleton]
  simp only [String.append_assoc]

/-! ## Members in extensions -/

namespace Extension

theorem infix_separated {ls : List Line} {members : List (List Line)} (mem : ls ∈ members) :
    ls <:+: separated members := by
  induction members using separated.induct with
  | case1 => cases mem
  | case2 only =>
    rw [List.mem_singleton.mp mem]
    exact List.infix_rfl
  | case3 first others some ih =>
    rw [separated]
    · rcases List.mem_cons.mp mem with rfl | other
      · exact List.infix_append_left
      · exact List.infix_append_of_infix_right (List.infix_cons (ih other))
    · exact some

/-- The members of an extension stand among its lines, deeper by one level. -/
theorem infix_lines {e : Extension} {m : CodeMember} (mem : m ∈ e.members) :
    nest (m.lines (accessWord e.isPublic)) <:+: e.lines := by
  have inside := infix_separated (List.mem_map_of_mem mem
    (f := CodeMember.lines (accessWord e.isPublic)))
  exact List.infix_append_of_infix_left (List.infix_cons (inside.map Line.nested))

/-- What an extension is run by stands in a text: the body of each function below its header, and
the cases of each enumeration of keys. -/
structure StandsIn (e : Extension) (unit text : String) : Prop where
  /-- The bodies. -/
  body : ∀ method body, e.body? method = some body → StandIn unit
    (nest ((CodeMember.function method body).lines (accessWord e.isPublic))) text
  /-- The keys. -/
  keys : ∀ name cases, e.keyCases? name = some cases → ∃ textual, StandIn unit
    (nest ((CodeMember.keys name textual cases).lines (accessWord e.isPublic))) text

/-- What an extension is run by stands in its text. -/
theorem standsIn_render (e : Extension) (unit : String) : e.StandsIn unit (e.render unit) where
  body method body found := by
    obtain ⟨m, mem, is⟩ := List.exists_of_findSome?_eq_some found
    cases m with
    | keys => cases is
    | function method' body' =>
      rw [CodeMember.body?, Option.ite_none_right_eq_some, Option.some.injEq] at is
      obtain ⟨rfl, rfl⟩ := is
      exact standIn_renderAll (infix_lines mem)
  keys name cases' found := by
    obtain ⟨m, mem, is⟩ := List.exists_of_findSome?_eq_some found
    cases m with
    | function => cases is
    | keys name' textual cases'' =>
      rw [CodeMember.cases?, Option.ite_none_right_eq_some, Option.some.injEq] at is
      obtain ⟨rfl, rfl⟩ := is
      exact ⟨textual, standIn_renderAll (infix_lines mem)⟩

/-- What one of several extensions is run by stands in the block of all. -/
theorem standsIn_renderBlock {e : Extension} {es : List Extension} (mem : e ∈ es)
    (unit : String) : e.StandsIn unit (renderBlock unit es) where
  body method body found :=
    ((e.standsIn_render unit).body method body found).joined (List.mem_map_of_mem mem)
  keys name cases found := by
    obtain ⟨textual, stands⟩ := (e.standsIn_render unit).keys name cases found
    exact ⟨textual, stands.joined (List.mem_map_of_mem mem)⟩

end Extension

namespace MemberwiseInit

/-- What an initializer is run by stands in a text: its parameters and its assignments. -/
structure StandsIn (m : MemberwiseInit) (unit text : String) : Prop where
  /-- The parameters. -/
  parameters : StandIn unit
    ((withCommas (m.parameters.map Parameter.text)).map (Line.text 1)) text
  /-- The assignments. -/
  assignments : StandIn unit (m.assignments.map fun a => .text 1 a.text) text

theorem standsIn_render (m : MemberwiseInit) (unit : String) :
    m.StandsIn unit (m.render unit) := by
  cases fields : m.fields with
  | nil =>
    have parameters : m.parameters = [] := by rw [MemberwiseInit.parameters, fields]; rfl
    have assignments : m.assignments = [] := by rw [MemberwiseInit.assignments, fields]; rfl
    refine ⟨standIn_renderAll ?_, standIn_renderAll ?_⟩
    · rw [parameters]
      exact List.nil_infix
    · rw [assignments]
      exact List.nil_infix
  | cons f fs =>
    have some : ¬ m.fields.isEmpty = true := by simp [fields]
    refine ⟨standIn_renderAll ?_, standIn_renderAll ?_⟩
    · rw [lines, if_neg some]
      refine List.infix_cons (List.infix_append_of_infix_left (List.infix_cons ?_))
      exact List.infix_append_left
    · rw [lines, if_neg some]
      refine List.infix_cons (List.infix_append_of_infix_left (List.infix_cons ?_))
      exact List.infix_append_of_infix_right (List.infix_cons List.infix_rfl)

end MemberwiseInit

/-! ## Blocks of types -/

namespace Nominal

/-- A type is a structure or class of some name, with some fields where types that are not written
are taken from settings. -/
structure IsProductOf (n : Nominal) (s : Settings) (type : String) (fields : List Field)
    (isPublic isClass : Bool) : Prop where
  shape : n.head.kind.shape = .product
  name : n.head.name = type
  fields : n.fields s.unknownType = fields
  isPublic : n.head.isPublic = isPublic
  isClass : (n.head.kind == .classKind) = isClass

/-- A type is an enumeration of some name, with some variants. -/
structure IsSumOf (n : Nominal) (type : String) (variants : List Variant) (isPublic : Bool) :
    Prop where
  shape : n.head.kind.shape = .sum
  name : n.head.name = type
  variants : n.variants = variants
  isPublic : n.head.isPublic = isPublic

variable {n : Nominal} {o : Options} {s : Settings} {type : String} {fields : List Field}
  {variants : List Variant} {isPublic isClass : Bool}

namespace IsProductOf

theorem memberwise_mem_blocks (is : n.IsProductOf s type fields isPublic isClass)
    (asked : o.memberwiseInit = true) :
    (⟨fields, isPublic⟩ : MemberwiseInit).render s.indentUnit ∈ n.blocks o s := by
  obtain ⟨shape, rfl, rfl, rfl, rfl⟩ := is
  simp [blocks, shape, productBlocks, memberwiseInit, asked]

theorem coding_mem_blocks (is : n.IsProductOf s type fields isPublic isClass)
    (asked : o.serialization = true) :
    (Codable.ofFields type fields isPublic isClass).render s.indentUnit ∈ n.blocks o s := by
  obtain ⟨shape, rfl, rfl, rfl, rfl⟩ := is
  simp [blocks, shape, productBlocks, asked]

theorem comparing_mem_blocks (is : n.IsProductOf s type fields isPublic isClass)
    (asked : o.wantsEquality = true) :
    renderBlock s.indentUnit (Equality.fieldExtensions s.stableHash type fields isPublic
      o.hashing o.stableHashing) ∈ n.blocks o s := by
  obtain ⟨shape, rfl, rfl, rfl, rfl⟩ := is
  simp [blocks, shape, productBlocks, asked]

end IsProductOf

namespace IsSumOf

theorem coding_mem_blocks (is : n.IsSumOf type variants isPublic)
    (asked : o.serialization = true) :
    (Codable.ofVariants type variants isPublic).render s.indentUnit ∈ n.blocks o s := by
  obtain ⟨shape, rfl, rfl, rfl⟩ := is
  simp [blocks, shape, sumBlocks, asked]

theorem comparing_mem_blocks (is : n.IsSumOf type variants isPublic)
    (asked : o.wantsEquality = true) :
    renderBlock s.indentUnit (Equality.variantExtensions s.stableHash type variants isPublic
      o.hashing o.stableHashing) ∈ n.blocks o s := by
  obtain ⟨shape, rfl, rfl, rfl⟩ := is
  simp [blocks, shape, sumBlocks, asked]

end IsSumOf

end Nominal

end Conformance
