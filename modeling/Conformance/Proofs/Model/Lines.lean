import Conformance.Generate

/-!
# Declarations in other places

What is generated for a declaration does not depend on the place it begins at
(`Nominal.blocks_relocate`).  A source with its declarations some lines further down has the
same blocks, and its units and warnings stand as many lines further down.
-/

namespace Conformance

/-! ## Declarations -/

variable (f : Location → Location)

/-- A property in another place. -/
def PropertyDecl.relocate (p : PropertyDecl) : PropertyDecl := { p with location := f p.location }

/-- Cases in another place. -/
def CaseDecl.relocate (c : CaseDecl) : CaseDecl := { c with location := f c.location }

/-- A declaration without state in another place. -/
def StatelessDecl.relocate (d : StatelessDecl) : StatelessDecl :=
  { d with location := f d.location }

/-- A line of compiler control in another place. -/
def Directive.relocate (d : Directive) : Directive := { d with location := f d.location }

/-- The head of a type in another place. -/
def NominalHead.relocate (h : NominalHead) : NominalHead := { h with location := f h.location }

mutual
/-- A member in another place, with all members in it. -/
def Member.relocate : Member → Member
  | .property p => .property (p.relocate f)
  | .cases c => .cases (c.relocate f)
  | .nominal head members => .nominal (head.relocate f) (Member.relocateAll members)
  | .stateless d => .stateless (d.relocate f)
  | .directive d => .directive (d.relocate f)

/-- Members in other places. -/
def Member.relocateAll : List Member → List Member
  | [] => []
  | m :: ms => m.relocate :: Member.relocateAll ms
end

/-- A type in another place. -/
def Nominal.relocate (t : Nominal) : Nominal := ⟨t.head.relocate f, Member.relocateAll f t.members⟩

/-- A declaration in another place. -/
def Declaration.relocate : Declaration → Declaration
  | .nominal t => .nominal (t.relocate f)
  | .stateless d => .stateless (d.relocate f)
  | .directive d => .directive (d.relocate f)

@[simp] theorem Declaration.nominal?_relocate (d : Declaration) :
    (d.relocate f).nominal? = d.nominal?.map (Nominal.relocate f) := by
  cases d <;> rfl

mutual
theorem Member.relocate_id : ∀ m : Member, m.relocate id = m
  | .property _ | .cases _ | .stateless _ | .directive _ => rfl
  | .nominal head members => congrArg (Member.nominal head) (Member.relocateAll_id members)

theorem Member.relocateAll_id : ∀ ms : List Member, Member.relocateAll id ms = ms
  | [] => rfl
  | m :: ms => by rw [Member.relocateAll, Member.relocate_id m, Member.relocateAll_id ms]
end

@[simp] theorem Declaration.relocate_id : Declaration.relocate id = id := by
  funext d
  cases d with
  | nominal t =>
    exact congrArg (fun ms => nominal ⟨t.head, ms⟩) (Member.relocateAll_id t.members)
  | _ => rfl

/-- The same column, some lines further down. -/
def Location.down (n : Nat) (l : Location) : Location := ⟨l.line + n, l.column⟩

/-- A type some lines further down, with all members in it. -/
def Nominal.down (n : Nat) : Nominal → Nominal := Nominal.relocate (Location.down n)

/-- A declaration some lines further down. -/
def Declaration.down (n : Nat) : Declaration → Declaration :=
  Declaration.relocate (Location.down n)

/-! ## Fields and variants -/

theorem Member.field?_relocate (unknownType : String) (m : Member) :
    (m.relocate f).field? unknownType = m.field? unknownType := by
  cases m <;> rfl

theorem Member.variants_relocate (m : Member) : (m.relocate f).variants = m.variants := by
  cases m <;> rfl

theorem Nominal.fields_relocate (t : Nominal) (unknownType : String) :
    (t.relocate f).fields unknownType = t.fields unknownType := by
  obtain ⟨head, members⟩ := t
  show (Member.relocateAll f members).filterMap _ = members.filterMap _
  induction members with
  | nil => rfl
  | cons m ms ih =>
    rw [Member.relocateAll, List.filterMap_cons, List.filterMap_cons, m.field?_relocate, ih]

theorem Nominal.fields_down (n : Nat) (t : Nominal) (unknownType : String) :
    (t.down n).fields unknownType = t.fields unknownType :=
  t.fields_relocate _ unknownType

theorem Nominal.variants_relocate (t : Nominal) : (t.relocate f).variants = t.variants := by
  obtain ⟨head, members⟩ := t
  show (Member.relocateAll f members).flatMap _ = members.flatMap _
  induction members with
  | nil => rfl
  | cons m ms ih =>
    rw [Member.relocateAll, List.flatMap_cons, List.flatMap_cons, m.variants_relocate, ih]

/-! ## Blocks -/

/-- Places do not count for blocks. -/
theorem Nominal.blocks_relocate (t : Nominal) (o : Options) (s : Settings) :
    (t.relocate f).blocks o s = t.blocks o s := by
  have product : (t.relocate f).productBlocks o s = t.productBlocks o s := by
    simp only [productBlocks, memberwiseInit, fields_relocate]
    rfl
  have sum : (t.relocate f).sumBlocks o s = t.sumBlocks o s := by
    simp only [sumBlocks, variants_relocate]
    rfl
  have shape : (t.relocate f).head.kind.shape = t.head.kind.shape := rfl
  rw [blocks, blocks, shape, product, sum]

theorem Declaration.blocks_relocate (d : Declaration) (o : Options) (s : Settings) :
    (d.relocate f).blocks o s = d.blocks o s := by
  cases d with
  | nominal t => exact t.blocks_relocate f o s
  | _ => rfl

/-! ## Units and warnings -/

/-- A unit some lines further down. -/
def GeneratedUnit.down (n : Nat) (u : GeneratedUnit) : GeneratedUnit :=
  { u with location := u.location.down n }

theorem Nominal.unit?_down (n : Nat) (t : Nominal) (o : Options) (s : Settings) :
    (t.down n).unit? o s = (t.unit? o s).map (GeneratedUnit.down n) := by
  simp only [unit?, down, blocks_relocate]
  split <;> rfl

/-- A place some lines further down. -/
def Span.down (n : Nat) (s : Span) : Span :=
  { s with line := s.line.map (· + n), endLine := s.endLine.map (· + n) }

/-- A diagnostic some lines further down. -/
def Diagnostic.down (n : Nat) (d : Diagnostic) : Diagnostic := { d with span := d.span.down n }

/-! ## Sources -/

namespace SourceFile

variable (n : Nat) (ds es : List Declaration) (filename : Option String) (o : Options)
  (s : Settings)

theorem nominals_append : nominals ⟨ds ++ es.map (Declaration.down n), filename⟩ =
    nominals ⟨ds, filename⟩ ++ (nominals ⟨es, filename⟩).map (Nominal.down n) := by
  simp only [nominals, List.filterMap_append, List.filterMap_map, List.map_filterMap]
  congr 2
  funext d
  exact d.nominal?_relocate _

/-- The units of declarations in a row. -/
theorem units_append : units ⟨ds ++ es.map (Declaration.down n), filename⟩ o s =
    units ⟨ds, filename⟩ o s ++ (units ⟨es, filename⟩ o s).map (GeneratedUnit.down n) := by
  simp only [units, nominals_append, List.filterMap_append, List.filterMap_map,
    List.map_filterMap]
  congr 2
  funext t
  exact t.unit?_down n o s

/-- The warnings about declarations in a row. -/
theorem warnings_append : warnings ⟨ds ++ es.map (Declaration.down n), filename⟩ o =
    warnings ⟨ds, filename⟩ o ++ (warnings ⟨es, filename⟩ o).map (Diagnostic.down n) := by
  unfold warnings
  split
  · have final : Nominal.needsFinal ∘ Nominal.down n = Nominal.needsFinal := rfl
    simp only [nominals_append, List.filter_append, List.map_append, List.filter_map, final,
      List.map_map]
    rfl
  · rfl

end SourceFile

end Conformance
