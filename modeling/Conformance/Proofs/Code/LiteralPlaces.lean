import Conformance.Generate
import Conformance.Proofs.Code.LineEnds
import Conformance.Proofs.Coding.KeyNames

/-!
# Literals in generated code

In the code for an enumeration there are two sorts of literals, and each ends a line: the names
of its variants, and what an error says when nothing can be decoded.

A name is put in by way of `stringLiteral`.  In front of it there is nothing but fixed texts,
words of the source and other literals.  So it is one token at its place, and reads back as the
name without back quotes.

The error names the type, which is put between quotes as it is.  That is the literal of what is
to be said just if the name has neither a quote nor a backslash in it
(`rejection_eq_stringLiteral_iff`), and a back-quoted name may have them
(`SourceFile.read_quotedTypeName`).  In front of it there are also the names of keys.  These are
made of back-quoted names without the quotes, and need not be words.
-/

namespace Conformance

open Pattern Lexical Comparing Grammar

/-! ## Code in front of the error -/

/-- The words that come into the code for a variant are steady. -/
structure Variant.Steady (v : Variant) : Prop where
  /-- The name. -/
  name : IsSteady v.name
  /-- The names that slots are bound to. -/
  bound : ∀ b ∈ v.boundNames payloadPrefix, IsSteady b

theorem steady_store (store : Store) : IsSteady store.name := by
  have plain : IsPlainName store.name := by cases store <;> decide
  exact plain.piece.steady

theorem steady_key (i : Nat) : IsSteady (positionalKey i) :=
  (isPlainName_positionalKey i).piece.steady

/-- A pattern with steady texts put in. -/
theorem Variant.Steady.pattern {v : Variant} (h : v.Steady) :
    IsSteady (v.pattern payloadPrefix).text := by
  have bindings : IsSteady (v.pattern payloadPrefix).bindings := by
    refine isSteady_commaList fun s mem => ?_
    obtain ⟨b, inside, rfl⟩ := List.mem_map.mp mem
    have line : "let " ++ b = fill "let " [b] [""] := by simp [fill]
    rw [line]
    exact isSteady_fill rfl rfl rfl (by simpa using h.bound b inside)
  unfold CasePattern.text
  split
  · have line : "." ++ v.name = fill "." [v.name] [""] := by simp [fill]
    exact line ▸ isSteady_fill rfl rfl rfl (by simpa using h.name)
  · have line : "." ++ v.name ++ "(" ++ (v.pattern payloadPrefix).bindings ++ ")" =
        fill "." [v.name, (v.pattern payloadPrefix).bindings] ["(", ")"] := by
      simp [fill, String.append_assoc]
    exact line ▸ isSteady_fill rfl rfl rfl (by simp [h.name, bindings])

section
variable {unit : String} (spaces : ∀ c ∈ unit.toList, isSpace c = true)
include spaces

variable {depth : Nat}

theorem allSteady_keys {name access : String} (steady : IsSteady name) (textual : Bool)
    {cases' : List String} (each : ∀ c ∈ cases', IsSteady c) :
    Line.AllSteady unit ((CodeMember.keys name textual cases').lines access) := by
  cases cases' with
  | nil =>
    refine List.forall_mem_singleton.mpr ?_
    exact Line.steady_of_fill spaces "enum " [name] [": CodingKey \x7b\x7d"]
      (by simp [fill, String.append_assoc]) rfl rfl rfl (by simpa using steady)
  | cons c cs =>
    have list := isSteady_commaList each
    refine List.forall_mem_cons.mpr ⟨?_, List.forall_mem_cons.mpr ⟨?_, ?_⟩⟩
    · cases textual
      · exact Line.steady_of_fill spaces "enum " [name] [": CodingKey \x7b"]
          (by simp [fill, String.append_assoc]) rfl rfl rfl (by simpa using steady)
      · exact Line.steady_of_fill spaces "enum " [name] [": String, CodingKey \x7b"]
          (by simp [fill, String.append_assoc]) rfl rfl rfl (by simpa using steady)
    · exact Line.steady_of_fill spaces "case " [commaList (c :: cs)] [""] (by simp [fill])
        rfl rfl rfl (by simpa using list)
    · exact Line.allSteady_of_lead spaces rfl

namespace Variant.Steady

variable {v : Variant}

theorem label (h : v.Steady) :
    IsSteady ((Line.text depth (v.pattern payloadPrefix).label).render unit) :=
  Line.steady_of_fill spaces "case " [(v.pattern payloadPrefix).text] [":"]
    (by simp [CasePattern.label, fill, String.append_assoc]) rfl rfl rfl (by simpa using h.pattern)

theorem encodeSteps (h : v.Steady) (keys : v.isKeyed = true → IsSteady v.keysName) :
    ∀ s ∈ v.encodeSteps, Line.AllSteady unit (s.lines depth) := by
  have encode {store : Store} {value key : String} (is : IsSteady value) (under : IsSteady key) :
      Line.AllSteady unit ((Step.encode store value key).lines depth) :=
    List.forall_mem_singleton.mpr <|
      Line.steady_of_fill spaces "try " [store.name, value, key] [".encode(", ", forKey: .", ")"]
        (by simp [fill, String.append_assoc]) rfl rfl rfl (by simp [steady_store, is, under])
  have bound {s : Slot} (mem : s ∈ v.slots) : IsSteady (boundName payloadPrefix s) :=
    h.bound _ (List.mem_map_of_mem mem)
  unfold Variant.encodeSteps
  cases slots : v.slots with
  | nil =>
    refine List.forall_mem_singleton.mpr (List.forall_mem_singleton.mpr ?_)
    exact Line.steady_of_fill spaces "try container.encodeNil(forKey: ." [v.name] [")"]
      (by simp [fill, String.append_assoc]) rfl rfl rfl (by simpa using h.name)
  | cons s rest =>
    rw [slots] at bound
    cases rest with
    | nil => exact List.forall_mem_singleton.mpr (encode (bound List.mem_cons_self) h.name)
    | cons t rest =>
      have several : IsSteady v.keysName := keys (by simp [isKeyed, arity, slots])
      refine List.forall_mem_cons.mpr ⟨List.forall_mem_singleton.mpr ?_, ?_⟩
      · exact Line.steady_of_fill spaces "var nestedContainer = container.nestedContainer(keyedBy: "
          [v.keysName, v.name] [".self, forKey: .", ")"] (by simp [fill, String.append_assoc])
          rfl rfl rfl (by simp [several, h.name])
      · refine List.forall_mem_map.mpr fun slot place => ?_
        exact encode (bound (List.fst_mem_of_mem_zipIdx place)) (steady_key slot.2)

end Variant.Steady

/-- The code in front of decoding is steady, if the names of keys are. -/
theorem steady_encoding {variants : List Variant} (steady : ∀ v ∈ variants, v.Steady)
    (keys : ∀ v ∈ variants, v.isKeyed = true → IsSteady v.keysName) (isPublic : Bool) :
    ∀ m ∈ CodeMember.keys outerKeys true (variants.map Variant.name) ::
        variants.filterMap Variant.innerKeys? ++
          [.function .encode (Codable.encodeVariants variants)],
      Line.AllSteady unit (m.lines (accessWord isPublic)) := by
  have outer : IsSteady outerKeys := IsPlainName.piece (by decide) |>.steady
  refine List.forall_mem_append.mpr ⟨List.forall_mem_cons.mpr ⟨?_, fun m mem => ?_⟩, ?_⟩
  · exact allSteady_keys spaces outer true
      (List.forall_mem_map.mpr fun v mem => (steady v mem).name)
  · obtain ⟨v, inside, is⟩ := List.mem_filterMap.mp mem
    unfold Variant.innerKeys? at is
    split at is
    next several =>
      obtain rfl := Option.some.inj is
      have keyed : v.isKeyed = true := by simpa [Variant.isKeyed] using several
      exact allSteady_keys spaces (keys v inside keyed) false
        (List.forall_mem_map.mpr fun i _ => steady_key i)
    next => cases is
  · have header : IsSteady ((Line.text 0
        (Method.encode.header (accessWord isPublic) ++ " \x7b")).render unit) := by
      cases isPublic <;> exact Line.steady_of_lead spaces rfl
    have opening : IsSteady ((Line.text 1
        "var container = encoder.container(keyedBy: CodingKeys.self)").render unit) :=
      Line.steady_of_lead spaces rfl
    have arms : ∀ v ∈ variants, Line.AllSteady unit
        (Arm.lines 1 ⟨v.pattern payloadPrefix, v.encodeSteps⟩) := by
      intro v mem
      refine List.forall_mem_cons.mpr ⟨(steady v mem).label spaces, fun l inside => ?_⟩
      obtain ⟨s, step, line⟩ := List.mem_flatMap.mp inside
      exact (steady v mem).encodeSteps spaces (keys v mem) s step l line
    have switch : Line.AllSteady unit ((Statement.switch "self"
        (variants.map fun v => ⟨v.pattern payloadPrefix, v.encodeSteps⟩) false).lines 1) := by
      refine List.forall_mem_cons.mpr ⟨Line.steady_of_lead spaces rfl, ?_⟩
      refine List.forall_mem_append.mpr ⟨List.forall_mem_append.mpr ⟨?_, List.forall_mem_nil _⟩, ?_⟩
      · rw [List.flatMap_map]
        exact List.forall_mem_flatMap.mpr arms
      · exact Line.allSteady_of_lead spaces rfl
    refine List.forall_mem_singleton.mpr (List.forall_mem_append.mpr
      ⟨List.forall_mem_cons.mpr ⟨header, ?_⟩, Line.allSteady_of_lead spaces rfl⟩)
    rw [Codable.encodeVariants, List.flatMap_append, List.flatMap_singleton]
    refine List.forall_mem_append.mpr ⟨?_, switch⟩
    split
    · exact List.forall_mem_nil _
    · simpa [Statement.lines, Step.lines, outerKeys] using opening

end

/-! ## Places of literals -/

section
variable {unit : String} (spaces : ∀ c ∈ unit.toList, isSpace c = true) {given : Prop}
include spaces

variable (given) in
theorem endsAt_reject (type : String) (depth : Nat) :
    EndsAt given unit ((Step.reject type).lines depth) 3 "debugDescription: "
      (rejection type) := by
  have above : Line.AllSteady unit [.text depth "throw DecodingError.dataCorrupted(",
      .text (depth + 1) "DecodingError.Context(",
      .text (depth + 2) "codingPath: container.codingPath,"] := by
    exact List.forall_mem_cons.mpr ⟨Line.steady_of_lead spaces rfl,
      List.forall_mem_cons.mpr ⟨Line.steady_of_lead spaces rfl, Line.allSteady_of_lead spaces rfl⟩⟩
  have here : EndsAt given unit [.text (depth + 2) ("debugDescription: " ++ rejection type),
      .text (depth + 1) ")", .text depth ")"] 0 "debugDescription: " (rejection type) := .here
  rw [← description_eq] at here
  exact here.below fun _ => above

variable (given) in
/-- The error ends a line of the function that decodes. -/
theorem endsAt_decoding (type : String) (variants : List Variant) (isPublic : Bool) :
    ∃ i, EndsAt given unit ((CodeMember.function (.decode false)
      (Codable.decodeVariants type variants)).lines (accessWord isPublic)) i "debugDescription: "
      (rejection type) := by
  have header : IsSteady ((Line.text 0
      ((Method.decode false).header (accessWord isPublic) ++ " \x7b")).render unit) := by
    cases isPublic <;> exact Line.steady_of_lead spaces rfl
  have opening : Line.AllSteady unit
      [.text 1 "let container = try decoder.container(keyedBy: CodingKeys.self)"] :=
    Line.allSteady_of_lead spaces rfl
  have guarding : Line.AllSteady unit
      [.text 1 "guard container.allKeys.count == 1, let key = container.allKeys.first else \x7b"] :=
    Line.allSteady_of_lead spaces rfl
  obtain ⟨i, body⟩ : ∃ i, EndsAt given unit
      ((Codable.decodeVariants type variants).flatMap (Statement.lines 1)) i "debugDescription: "
      (rejection type) := by
    unfold Codable.decodeVariants
    rw [List.flatMap_cons]
    split
    · rw [List.flatMap_singleton]
      exact ⟨_, (endsAt_reject spaces given type 1).below fun _ => opening⟩
    · rw [List.flatMap_cons]
      have inner := ((endsAt_reject spaces given type 2).append [.text 1 "\x7d"]).below
        fun _ => guarding
      exact ⟨_, (inner.append _).below fun _ => opening⟩
  have whole := (body.append [.text 0 "\x7d"]).below fun _ => List.forall_mem_singleton.mpr header
  exact ⟨_, whole⟩

/-- What ends a line of a member ends one of its extension. -/
theorem EndsAt.extension {e : Extension} {i : Nat} {start literal : String}
    (named : IsSteady e.type) (conformance : IsSteady e.conformance)
    (h : EndsAt given unit (Extension.separated
      (e.members.map (CodeMember.lines (accessWord e.isPublic)))) i start literal) :
    EndsAt given unit e.lines (1 + i) start literal := by
  have opening : IsSteady ((Line.text 0 ("extension " ++ e.type ++ ": " ++ e.conformance ++
      " \x7b")).render unit) :=
    Line.steady_of_fill spaces "extension " [e.type, e.conformance] [": ", " \x7b"]
      (by simp [fill, String.append_assoc]) rfl rfl rfl (by simp [named, conformance])
  exact ((h.nest spaces).append [.text 0 "\x7d"]).below
    fun _ => List.forall_mem_singleton.mpr opening

/-- The error ends a line of the conformance to coding. -/
theorem endsAt_coding {type : String} {variants : List Variant} (named : IsSteady type)
    (steady : ∀ v ∈ variants, v.Steady) (isPublic : Bool) :
    ∃ i, EndsAt (∀ v ∈ variants, v.isKeyed = true → IsSteady v.keysName) unit
      (Codable.ofVariants type variants isPublic).lines i "debugDescription: "
      (rejection type) := by
  obtain ⟨i, decoding⟩ := endsAt_decoding spaces
    (∀ v ∈ variants, v.isKeyed = true → IsSteady v.keysName) type variants isPublic
  obtain ⟨j, members⟩ := decoding.separated fun keys =>
    List.forall_mem_map.mpr (steady_encoding spaces steady keys isPublic)
  have conformance : IsSteady Codable.conformance := IsPlainName.piece (by decide) |>.steady
  refine ⟨1 + j, EndsAt.extension spaces (e := Codable.ofVariants type variants isPublic) named
    conformance ?_⟩
  simpa [Codable.ofVariants] using members

/-- The name of each variant ends a line of the conformance to equality. -/
theorem endsAt_names {type : String} {variants : List Variant} (named : IsSteady type)
    (steady : ∀ v ∈ variants, IsSteady v.name ∧ IsSteady v.nameLiteral) (isPublic : Bool)
    {i : Nat} {v : Variant} (place : variants[i]? = some v) :
    EndsAt True unit (Equality.ofVariants type variants isPublic).lines (i + 3)
      ("case ." ++ v.name ++ ": return ") v.nameLiteral := by
  let arm := fun v : Variant => Line.text 1 ("case ." ++ v.name ++ ": return " ++ v.nameLiteral)
  have row {a b : String} (name : IsSteady a) (literal : IsSteady b) :
      IsSteady ((Line.text 1 ("case ." ++ a ++ ": return " ++ b)).render unit) :=
    Line.steady_of_fill spaces "case ." [a, b] [": return ", ""]
      (by simp [fill, String.append_assoc]) rfl rfl rfl (by simp [name, literal])
  have arms : EndsAt True unit (variants.map arm) i ("case ." ++ v.name ++ ": return ")
      v.nameLiteral := by
    refine ⟨⟨1, by rw [List.getElem?_map, place]; rfl⟩, fun _ l mem => ?_⟩
    obtain ⟨w, inside, rfl⟩ := List.mem_map.mp (List.mem_of_mem_take mem)
    exact row (steady w inside).1 (steady w inside).2
  have front : Line.AllSteady unit
      [.text 0 (Method.variantName.header (accessWord isPublic) ++ " \x7b"),
        .text 1 "switch self \x7b"] := by
    refine List.forall_mem_cons.mpr ⟨?_, Line.allSteady_of_lead spaces rfl⟩
    cases isPublic <;> exact Line.steady_of_lead spaces rfl
  have conformance : IsSteady Equality.equatable := IsPlainName.piece (by decide) |>.steady
  have function : EndsAt True unit ((CodeMember.function .variantName
      [.returnName (variants.map fun v => (v.name, v.nameLiteral))]).lines (accessWord isPublic))
      (2 + i) ("case ." ++ v.name ++ ": return ") v.nameLiteral := by
    have whole := (arms.append [.text 1 "\x7d", .text 0 "\x7d"]).below fun _ => front
    simpa [CodeMember.lines, Statement.lines, arm, Function.comp_def] using whole
  have whole := EndsAt.extension spaces (e := Equality.ofVariants type variants isPublic) named
    conformance (function.first _)
  rwa [← Nat.add_assoc, Nat.add_comm] at whole

end

/-! ## Blocks -/

/-- A block is the lines of its extensions, with a blank one between each two. -/
theorem renderBlock_eq (unit : String) (es : List Extension) :
    renderBlock unit es = Line.renderAll unit (Extension.separated (es.map Extension.lines)) := by
  have some (e : Extension) : e.lines ≠ [] := List.cons_ne_nil _ _
  induction es with
  | nil => rfl
  | cons e es ih =>
    cases es with
    | nil => simp [renderBlock, Extension.separated, Extension.render]
    | cons d es =>
      have next : Extension.separated ((d :: es).map Extension.lines) ≠ [] := by
        cases es <;> simp [Extension.separated, some]
      have whole : renderBlock unit (e :: d :: es) =
          e.render unit ++ "\n\n" ++ renderBlock unit (d :: es) := String.intercalate_cons_cons
      rw [whole, ih]
      exact (Line.renderAll_blank unit (some e) next).symm

/-! ## What the error says -/

/-- The name of a type stands between quotes as it is.  That is the literal of what is to be said
just if there is nothing to escape in it. -/
theorem rejection_eq_stringLiteral_iff (type : String) :
    rejection type = stringLiteral (reason type) ↔ ∀ c ∈ type.toList, c ≠ '"' ∧ c ≠ '\\' := by
  have fixed : ∀ c ∈ "Unable to decode ".toList ++ ": no valid case found.".toList,
      c ≠ '"' ∧ c ≠ '\\' := List.all_iff_forall_prop.mp (by decide)
  rw [rejection_eq, stringLiteral, String.ofList_inj, List.cons_append, List.cons.injEq,
    List.append_left_inj, and_iff_right rfl, eq_comm, flatMap_escape_eq_self, reason_eq]
  constructor
  · intro all c mem
    exact all c (List.mem_append_left _ (List.mem_append_right _ mem))
  · intro named c mem
    rcases List.mem_append.mp mem with mem | mem
    · rcases List.mem_append.mp mem with mem | mem
      · exact fixed c (List.mem_append_left _ mem)
      · exact named c mem
    · exact fixed c (List.mem_append_right _ mem)

theorem newline_notMem_reason {type : String} (word : IsWord type) : '\n' ∉ reason type := by
  obtain ⟨inner, -, -, oneLine, is⟩ := word.exists_inner
  have named : '\n' ∉ type.toList := by rcases is with is | is <;> rw [is] <;> simpa using oneLine
  rw [reason_eq, List.mem_append, List.mem_append, not_or, not_or]
  exact ⟨⟨by decide, named⟩, by decide⟩

/-! ## Literals of a source -/

/-- The names of types that declarations record.  That of an extension may have several parts. -/
def recordedNames : Gather PropertyDecl CaseDecl NominalHead String where
  property _ := []
  cases _ := []
  head h := if h.kind = .extensionKind then [] else [h.name]

/-- The names of types in their headers. -/
def typeNamePhrases : Gather Property CaseGroup Header (List Token) where
  property _ := []
  cases _ := []
  head h := if Header.kindOf h.keyword.kind = .extensionKind then [] else [[h.name.val]]

theorem agrees_typeNames : Agrees recordedNames typeNamePhrases Token.stretch where
  property _ := rfl
  cases _ := rfl
  head h := by
    have kind : h.nominalHead.kind = Header.kindOf h.keyword.kind := rfl
    rw [recordedNames, typeNamePhrases]
    dsimp only
    rw [kind]
    split
    next => rfl
    next other =>
      have name : h.fullName = h.name.text := by
        cases h with
        | structured => rfl
        | loose head keyword name atoms =>
          have behind : ¬(keyword.val.kind == .extensionKw) = true := by
            intro is
            exact other (by rw [Header.keyword, eq_of_beq is]; rfl)
          rw [Header.fullName, if_neg behind]
          rfl
      have text : h.nominalHead.name = h.name.text := name
      rw [text, List.map_singleton, Token.stretch_singleton]
      rfl

theorem takes_typeNames : Takes typeNamePhrases IsIdentifier where
  property _ _ mem := nomatch mem
  cases _ _ mem := nomatch mem
  head h ts mem := by
    rw [typeNamePhrases] at mem
    dsimp only at mem
    split at mem
    next => cases mem
    next =>
      obtain rfl := List.mem_singleton.mp mem
      refine ⟨?_, h.name.val, rfl, Word.isIdentifier_name h.name⟩
      cases h with
      | structured head keyword name =>
        exact ⟨head.tokens ++ [keyword.val], _, by simp [Header.tokens, Header.name]; rfl⟩
      | loose head keyword name atoms =>
        exact ⟨head.tokens ++ [keyword.val], _, by simp [Header.tokens, Header.name]; rfl⟩

namespace SourceFile

variable {text : String} {filename : Option String} {f : SourceFile}

/-- The name of a type of an accepted source is a word, that of an extension aside. -/
theorem isWord_type (accepted : read text filename = .ok f) {n : Nominal} (mem : n ∈ f.nominals)
    (kind : n.head.kind ≠ .extensionKind) : IsWord n.head.name := by
  refine isWord_of_gather agrees_typeNames takes_typeNames accepted ?_
  obtain ⟨d, declared, is⟩ := List.mem_filterMap.mp mem
  refine List.mem_flatMap.mpr ⟨d, declared, ?_⟩
  cases d with
  | nominal n' =>
    obtain rfl := Option.some.inj is
    exact List.mem_append_left _ (by simp [recordedNames, kind])
  | _ => cases is

/-- The words of a variant of an accepted source are steady. -/
theorem steady_variant (accepted : read text filename = .ok f) {n : Nominal}
    (mem : n ∈ f.nominals) {v : Variant} (variant : v ∈ n.variants) : v.Steady := by
  refine ⟨(isWord_variant accepted mem variant).steady, List.forall_mem_map.mpr fun s slot => ?_⟩
  obtain ⟨e, recorded, rfl⟩ := exists_case_of_variant mem variant
  exact isSteady_boundName (by decide)
    ((CaseElement.label_of_mem slot).imp_left (isWord_label accepted recorded))

/-- The literals in the code for an enumeration of an accepted source, whatever is asked for and
however it is configured.  The literal of each name ends a line, where it is one token, and reads
back as the name without the back quotes around it.

What the error says ends a line, too.  The text that is put there reads back as what is to be said
just if the name of the type has neither a quote nor a backslash in it.  If it has none, then the
text is lexed as one string in front of the line feed, and it is one token of the code if the
names of keys above it are single names. -/
theorem read_literals (accepted : read text filename = .ok f) {n : Nominal} (mem : n ∈ f.nominals)
    (kind : n.head.kind = .enumKind) (o : Options) (s : Settings) :
    (o.wantsEquality = true → ∃ lines, Line.renderAll s.indentUnit lines ∈ n.blocks o s ∧
      ∀ i v, n.variants[i]? = some v →
        (∃ depth, lines[i + 3]? =
          some (.text depth ("case ." ++ v.name ++ ": return " ++ v.nameLiteral))) ∧
        Line.EndsInString s.indentUnit lines (i + 3) v.nameLiteral ∧
        literal? v.nameLiteral = some v.bareName ∧ '\x60' ∉ v.bareName ∧
        (v.name.toList = v.bareName ∨ v.name.toList = '\x60' :: (v.bareName ++ ['\x60']))) ∧
    (o.serialization = true → ∃ lines i, Line.renderAll s.indentUnit lines ∈ n.blocks o s ∧
      (∃ depth, lines[i]? =
        some (.text depth ("debugDescription: " ++ rejection n.head.name))) ∧
      (literal? (rejection n.head.name) = some (reason n.head.name) ↔
        ∀ c ∈ n.head.name.toList, c ≠ '"' ∧ c ≠ '\\') ∧
      ((∀ c ∈ n.head.name.toList, c ≠ '"' ∧ c ≠ '\\') →
        (∀ rest, front? ((rejection n.head.name).toList ++ '\n' :: rest) =
          some (.string, (rejection n.head.name).toList.length)) ∧
        ((∀ v ∈ n.keyedVariants, IsOneName v.keysName) →
          Line.EndsInString s.indentUnit lines i (rejection n.head.name)))) := by
  have word := isWord_type accepted mem (by rw [kind]; decide)
  have named := word.steady
  have oneLine := newline_notMem_reason word
  have blocks : n.blocks o s = n.sumBlocks o s := by rw [Nominal.blocks, kind]; rfl
  rw [blocks, Nominal.sumBlocks]
  constructor
  · intro wanted
    let es := Equality.variantExtensions s.stableHash n.head.name n.variants n.head.isPublic
      o.hashing o.stableHashing
    refine ⟨Extension.separated (es.map Extension.lines), ?_, fun i v place => ?_⟩
    · rw [if_pos wanted, ← renderBlock_eq]
      exact List.mem_append_right _ List.mem_cons_self
    · have variant := List.mem_of_getElem? place
      have inner {w : Variant} (mem' : w ∈ n.variants) :=
        Variant.bareName_of_isWord (isWord_variant accepted mem mem')
      have steady {w : Variant} (mem' : w ∈ n.variants) := (isWord_variant accepted mem mem').steady
      obtain ⟨-, noQuote, oneLine, is⟩ := inner variant
      have ends := (endsAt_names s.spaces named
        (fun w mem' => ⟨steady mem', isSteady_stringLiteral (inner mem').2.2.1⟩) n.head.isPublic
        place).first (es.tail.map Extension.lines)
      have ready : IsReady ("case ." ++ v.name ++ ": return ") :=
        ((isReady_of_isLead rfl).append_steady (steady variant)).append_lead rfl
      obtain ⟨depth, line⟩ := ends.line
      exact ⟨ends.line, Line.endsInString s.spaces oneLine line ready (ends.above trivial),
        literal?_stringLiteral v.bareName, noQuote, is⟩
  · intro wanted
    obtain ⟨i, ends⟩ := endsAt_coding s.spaces named
      (fun v variant => steady_variant accepted mem variant) n.head.isPublic
    refine ⟨_, i, ?_, ends.line, ?_, fun clean => ⟨fun rest => ?_, fun keys => ?_⟩⟩
    · rw [if_pos wanted]
      exact List.mem_append_left _ List.mem_cons_self
    · rw [literal?_eq_some_iff, rejection_eq_stringLiteral_iff]
    · rw [(rejection_eq_stringLiteral_iff _).mpr clean]
      exact front?_stringLiteral oneLine fun c head => by cases head; decide
    · obtain ⟨depth, line⟩ := ends.line
      have above := ends.above fun v variant keyed =>
        (keys v (List.mem_filter.mpr ⟨variant, keyed⟩)).isWord.steady
      rw [(rejection_eq_stringLiteral_iff _).mpr clean] at line ⊢
      exact Line.endsInString s.spaces oneLine line (isReady_of_isLead rfl) above

/-- An enumeration with a quote in the name of a case, and keys for another case. -/
def quotedCaseText : String := "enum E \x7b case \x60a\"b\x60, c(Int, Int) \x7d"

/-- The name with the quote and the error are tokens of the code. -/
theorem read_quotedCaseText : ∃ f n equality coding i, read quotedCaseText none = .ok f ∧
    n ∈ f.nominals ∧ n.head.kind = .enumKind ∧
    Line.renderAll "    " equality ∈ n.blocks .everything {} ∧
    Line.EndsInString "    " equality 3 "\"a\\\"b\"" ∧
    literal? "\"a\\\"b\"" = some ['a', '"', 'b'] ∧
    Line.renderAll "    " coding ∈ n.blocks .everything {} ∧
    Line.EndsInString "    " coding i "\"Unable to decode E: no valid case found.\"" := by
  have seen : (read quotedCaseText none).toOption.map
      (fun f => f.nominals.map fun n => (n.head.kind, n.head.name, n.variants)) =
        some [(.enumKind, "E", [⟨"\x60a\"b\x60", none⟩,
          ⟨"c", some [⟨"v0", "Int", false⟩, ⟨"v1", "Int", false⟩]⟩])] := by
    decide +kernel
  obtain ⟨f, accepted, found⟩ := exists_ok_of _ seen
  obtain ⟨n, one, all⟩ := List.map_eq_singleton_iff.mp found
  obtain ⟨kind, both⟩ := Prod.mk.inj all
  obtain ⟨name, variants⟩ := Prod.mk.inj both
  have mem : n ∈ f.nominals := by simp [one]
  obtain ⟨names, error⟩ := read_literals accepted mem kind .everything {}
  obtain ⟨equality, inEquality, each⟩ := names rfl
  obtain ⟨-, named, reads, -⟩ := each 0 _ (by rw [variants]; rfl)
  obtain ⟨coding, i, inCoding, -, -, clean⟩ := error rfl
  rw [name] at clean
  obtain ⟨-, single⟩ := clean (List.all_iff_forall_prop.mp (by decide))
  rw [Nominal.keyedVariants, variants] at single
  exact ⟨f, n, equality, coding, i, accepted, mem, kind, inEquality, named, reads, inCoding,
    single (by decide +kernel)⟩

/-- An enumeration with a quote in its name. -/
def quotedTypeText : String := "enum \x60a\"b\x60 \x7b case x \x7d"

/-- What stands for the error at the end of a line is cut at the quote, and does not read back. -/
theorem read_quotedTypeName : ∃ f n, ∃ (lines : List Line) (i : Nat),
    read quotedTypeText none = .ok f ∧ f.nominals = [n] ∧
    n.head.kind = .enumKind ∧ n.head.name = "\x60a\"b\x60" ∧
    n.blocks { serialization := true } {} = [Line.renderAll "    " lines] ∧
    (∃ depth, lines[i]? = some (.text depth ("debugDescription: " ++ rejection n.head.name))) ∧
    (∀ rest, front? ((rejection n.head.name).toList ++ '\n' :: rest) =
      some (.string, "\"Unable to decode \x60a\"".length)) ∧
    literal? (rejection n.head.name) = none := by
  have seen : (read quotedTypeText none).toOption.map
      (fun f => f.nominals.map fun n => (n.head.kind, n.head.name)) =
        some [(.enumKind, "\x60a\"b\x60")] := by
    decide +kernel
  obtain ⟨f, accepted, found⟩ := exists_ok_of _ seen
  obtain ⟨n, one, both⟩ := List.map_eq_singleton_iff.mp found
  obtain ⟨kind, name⟩ := Prod.mk.inj both
  have mem : n ∈ f.nominals := by simp [one]
  obtain ⟨i, ends⟩ := endsAt_coding ({} : Settings).spaces
    (isWord_type accepted mem (by rw [kind]; decide)).steady
    (fun v variant => steady_variant accepted mem variant) n.head.isPublic
  have blocks : n.blocks { serialization := true } {} =
      [(Codable.ofVariants n.head.name n.variants n.head.isPublic).render "    "] := by
    rw [Nominal.blocks, kind]
    rfl
  refine ⟨f, n, _, i, accepted, one, kind, name, blocks, ends.line, ?_⟩
  rw [name]
  exact ⟨fun rest => rfl, by decide +kernel⟩

end SourceFile

end Conformance
