import Conformance.Code.Codable
import Conformance.Code.Memberwise
import Conformance.Diagnostic
import Conformance.Settings

/-!
# Generating code

Each type declaration outside of any other is handled by itself.  Its *blocks*
are the memberwise initializer, the conformance to coding, and one block with
equality and the hashes, as far as they are asked for and fit its shape.  What is
generated for one declaration does not depend on any other, and the order is that
of the source.

A class that is not final gets a warning, because only a final class can conform
to decoding in an extension.
-/

namespace Conformance

/-! ## Blocks -/

namespace Nominal

/-- The memberwise initializer of a type. -/
def memberwiseInit (n : Nominal) (s : Settings) : MemberwiseInit :=
  ⟨n.fields s.unknownType, n.head.isPublic⟩

/-- The blocks of a structure or class. -/
def productBlocks (n : Nominal) (o : Options) (s : Settings) : List String :=
  let fields := n.fields s.unknownType
  let isPublic := n.head.isPublic
  (if o.memberwiseInit then [(n.memberwiseInit s).render s.indentUnit] else []) ++
    (if o.serialization then
      [(Codable.ofFields n.head.name fields isPublic (n.head.kind == .classKind)).render
        s.indentUnit]
    else []) ++
    if o.wantsEquality then
      [renderBlock s.indentUnit (Equality.fieldExtensions s.stableHash n.head.name fields
        isPublic o.hashing o.stableHashing)]
    else []

/-- The blocks of an enumeration. -/
def sumBlocks (n : Nominal) (o : Options) (s : Settings) : List String :=
  let variants := n.variants
  let isPublic := n.head.isPublic
  (if o.serialization then
    [(Codable.ofVariants n.head.name variants isPublic).render s.indentUnit]
  else []) ++
    if o.wantsEquality then
      [renderBlock s.indentUnit (Equality.variantExtensions s.stableHash n.head.name variants
        isPublic o.hashing o.stableHashing)]
    else []

/-- The blocks of a type. -/
def blocks (n : Nominal) (o : Options) (s : Settings) : List String :=
  match n.head.kind.shape with
  | .product => n.productBlocks o s
  | .sum => n.sumBlocks o s
  | .other => []

end Nominal

/-- The blocks of a declaration. -/
def Declaration.blocks (d : Declaration) (o : Options) (s : Settings) : List String :=
  match d with
  | nominal n => n.blocks o s
  | _ => []

/-! ## Units -/

/-- What is generated for one declaration. -/
structure GeneratedUnit where
  /-- The name of the type. -/
  name : String
  /-- The shape of the type. -/
  shape : Shape
  /-- The blocks. -/
  blocks : List String
  /-- Where the declaration begins. -/
  location : Location
deriving DecidableEq, Repr

/-- The unit of a type, if anything is generated for it. -/
def Nominal.unit? (n : Nominal) (o : Options) (s : Settings) : Option GeneratedUnit :=
  let blocks := n.blocks o s
  if blocks.isEmpty then none
  else some ⟨n.head.name, n.head.kind.shape, blocks, n.head.location⟩

/-- The units of a source, in order. -/
def SourceFile.units (f : SourceFile) (o : Options) (s : Settings) : List GeneratedUnit :=
  f.nominals.filterMap fun n => n.unit? o s

/-- Blocks with a blank line between each two, and a line feed at the end of the last.  Of no
blocks the text is empty. -/
def joinBlocks (blocks : List String) : String :=
  if blocks.isEmpty then "" else "\n\n".intercalate blocks ++ "\n"

/-- The text of all units. -/
def renderUnits (us : List GeneratedUnit) : String :=
  joinBlocks (us.flatMap GeneratedUnit.blocks)

/-- The code for a source with loose settings: the text whose fillings are the code for the filled
settings. -/
def SourceFile.looseCode (f : SourceFile) (o : Options) (s : LooseSettings) : LooseText :=
  .ofFillings fun stand => renderUnits (f.units o (s.fill stand))

/-! ## Warnings -/

namespace Nominal

/-- Whether decoding needs the type to be final and it is not. -/
def needsFinal (n : Nominal) : Bool :=
  n.head.kind == .classKind && !n.head.modifiers.contains "final"

/-- The warning that a type is not final. -/
def finalWarning (n : Nominal) (file : Option String) : Diagnostic where
  message := "class '" ++ n.head.name ++
    "' is not final; its generated Codable conformance needs a final class"
  code := some "W-NONFINAL-CLASS"
  phase := some "generate"
  severity := "warning"
  span := .ofLocation n.head.location file
  notes := [
    "declare it \x60final class\x60, or write \x60required init(from:)\x60 in the class body"]

end Nominal

/-- The warnings about what is generated for a source. -/
def SourceFile.warnings (f : SourceFile) (o : Options) : List Diagnostic :=
  if o.serialization then
    (f.nominals.filter Nominal.needsFinal).map fun n => n.finalWarning f.filename
  else []

end Conformance
