import Conformance.Generate
import Conformance.Proofs.Coding.Keys
import Conformance.Proofs.Model.Labels

/-!
# The names of keys

Every variant with several slots has an enumeration of keys for them, named after the variant:
its name without back quotes and with a capital, and `CodingKeys` behind it.  The stores below
a key are opened under that name.

The name is never `CodingKeys` itself, since no case of an accepted source has an empty name.
But the capital loses something: `a` and `A`, or `ß` and `SS`, give one name.  So the names of
the enumerations are distinct just if the names of the variants are when they are capitalized
(`SourceFile.read_keysNames`), and distinct names of variants do not do
(`SourceFile.read_collidingKeys`).
-/

namespace Conformance

open Pattern Grammar

/-! ## Names -/

namespace Text

/-- No capital is empty. -/
theorem capital_ne_nil (c : Char) : capital c ≠ [] := by
  have several : ∀ p ∈ manifoldCapitals, p.2 ≠ [] := by decide
  unfold capital
  dsimp only
  split
  · simp
  · split
    next caps found =>
      obtain ⟨front, back, eq, -⟩ := List.lookup_eq_some_iff.mp found
      have mem : (c.toNat, caps) ∈ manifoldCapitals := by rw [eq]; simp
      simpa using several _ mem
    next => simp

theorem capitalized_ne_nil {cs : List Char} (some : cs ≠ []) : capitalized cs ≠ [] := by
  obtain ⟨c, cs, rfl⟩ := List.exists_cons_of_ne_nil some
  simp [capitalized, capital_ne_nil]

theorem bounds_of_isLower {c : Char} (small : c.isLower = true) :
    c.val ≥ 'a'.val ∧ c.val ≤ 'z'.val :=
  (Bool.and_eq_true_iff.mp small).imp of_decide_eq_true of_decide_eq_true

/-- Small letters of ASCII have a single capital. -/
theorem capital_of_isLower {c : Char} (small : c.isLower = true) : capital c = [c.toUpper] :=
  capital_of_lt <| Nat.lt_of_le_of_lt
    (UInt32.le_iff_toNat_le.mp (bounds_of_isLower small).2) (by decide)

theorem val_toUpper {c : Char} (small : c.isLower = true) :
    c.toUpper.val = c.val + ('A'.val - 'a'.val) := by
  have upper : c.toUpper = _ := dif_pos (bounds_of_isLower small)
  rw [upper]

/-- Small letters of ASCII have different capitals. -/
theorem toUpper_injective {c d : Char} (small : c.isLower = true) (small' : d.isLower = true)
    (same : c.toUpper = d.toUpper) : c = d := by
  have shifted := congrArg Char.val same
  rw [val_toUpper small, val_toUpper small'] at shifted
  exact Char.ext ((UInt32.add_left_inj _).mp shifted)

end Text

namespace Variant

variable {v w : Variant}

/-- The name of a variant is its bare name, perhaps between back quotes. -/
theorem bareName_of_isWord (word : IsWord v.name) :
    v.bareName ≠ [] ∧ '\x60' ∉ v.bareName ∧ '\n' ∉ v.bareName ∧
      (v.name.toList = v.bareName ∨ v.name.toList = '\x60' :: (v.bareName ++ ['\x60'])) := by
  obtain ⟨inner, some, noQuote, noFeed, is⟩ := word.exists_inner
  have bare : v.bareName = inner := by
    rcases is with is | is
    · exact (bareName_of_no_quote (is ▸ noQuote)).trans is
    · exact bareName_of_quoted noQuote is
  rw [bare]
  exact ⟨some, noQuote, noFeed, is⟩

theorem keysName_eq_iff :
    v.keysName = w.keysName ↔ Text.capitalized v.bareName = Text.capitalized w.bareName := by
  rw [keysName, keysName, ← String.toList_inj]
  simp

theorem keysName_ne (named : v.bareName ≠ []) : v.keysName ≠ outerKeys := by
  intro same
  have lengths := congrArg String.length same
  rw [keysName, String.length_append, String.length_ofList] at lengths
  exact Text.capitalized_ne_nil named (by simpa [outerKeys] using lengths)

/-- Names that begin with small letters of ASCII stay distinct when they are capitalized. -/
theorem nodup_capitalized {vs : List Variant}
    (small : ∀ v ∈ vs, v.bareName.head?.any Char.isLower = true)
    (distinct : (vs.map bareName).Nodup) :
    (vs.map fun v => Text.capitalized v.bareName).Nodup := by
  refine List.pairwise_map.mpr ((List.pairwise_map.mp distinct).imp_of_mem ?_)
  intro v w first second different same
  have begins (u : Variant) (mem : u ∈ vs) : ∃ c cs, u.bareName = c :: cs ∧ c.isLower = true := by
    obtain ⟨c, head, lower⟩ := (Option.any_eq_true ..).mp (small u mem)
    obtain ⟨cs, name⟩ := List.head?_eq_some_iff.mp head
    exact ⟨c, cs, name, lower⟩
  obtain ⟨c, cs, name, lower⟩ := begins v first
  obtain ⟨d, ds, name', lower'⟩ := begins w second
  rw [name, name', Text.capitalized, Text.capitalized, Text.capital_of_isLower lower,
    Text.capital_of_isLower lower'] at same
  obtain ⟨capitals, tails⟩ := List.cons.inj same
  exact different (by
    rw [name, name', Text.toUpper_injective lower lower' capitals, show cs = ds from tails])

end Variant

/-! ## Declared and used -/

/-- The name and the cases of an enumeration of keys. -/
def CodeMember.enumeration? : CodeMember → Option (String × List String)
  | keys name _ cases => some (name, cases)
  | function .. => none

/-- The enumerations of keys that an extension declares. -/
def Extension.enumerations (e : Extension) : List (String × List String) :=
  e.members.filterMap CodeMember.enumeration?

/-- The keys that a store below a key is opened under, and that key. -/
def Step.opened? : Step → Option (String × String)
  | openInnerWriting keys key | openInnerReading keys key => some (keys, key)
  | _ => none

/-- The stores below keys that a statement opens. -/
def Statement.opened : Statement → List (String × String)
  | step s => s.opened?.toList
  | switch _ arms _ => arms.flatMap fun a => a.body.filterMap Step.opened?
  | returnName _ | requireOneKey _ => []

/-- The stores below keys that a member opens. -/
def CodeMember.opened : CodeMember → List (String × String)
  | keys .. => []
  | function _ body => body.flatMap Statement.opened

/-- The stores below keys that an extension opens. -/
def Extension.opened (e : Extension) : List (String × String) :=
  e.members.flatMap CodeMember.opened

namespace Variant

variable (v : Variant)

/-- The store below the key of a variant, if it has an enumeration of keys. -/
def store : List (String × String) := if v.isKeyed then [(v.keysName, v.name)] else []

theorem opened_encodeSteps : v.encodeSteps.filterMap Step.opened? = v.store := by
  have values (slots : List (Slot × Nat)) :
      (slots.map fun p => Step.encode .inner (boundName payloadPrefix p.1)
        (positionalKey p.2)).filterMap Step.opened? = [] := by
    rw [List.filterMap_map]
    exact List.filterMap_eq_nil_iff.mpr fun _ _ => rfl
  rcases slots : v.slots with _ | ⟨s, _ | ⟨t, rest⟩⟩
  · simp [encodeSteps, store, isKeyed, arity, slots, Step.opened?]
  · simp [encodeSteps, store, isKeyed, arity, slots, Step.opened?]
  · have several : v.isKeyed = true := by simp [isKeyed, arity, slots]
    simp only [encodeSteps, slots, store, several, if_true]
    exact congrArg ((v.keysName, v.name) :: ·) (values _)

theorem opened_decodeSteps : v.decodeSteps.filterMap Step.opened? = v.store := by
  rcases slots : v.slots with _ | ⟨s, _ | ⟨t, rest⟩⟩ <;>
    simp [decodeSteps, readSteps, store, isKeyed, arity, slots, Step.opened?]

end Variant

/-- The variants with several slots. -/
def Nominal.keyedVariants (n : Nominal) : List Variant := n.variants.filter Variant.isKeyed

/-- The conformance to coding of an enumeration. -/
def Nominal.variantCoding (n : Nominal) : Extension :=
  Codable.ofVariants n.head.name n.variants n.head.isPublic

namespace Nominal

variable (n : Nominal)

/-- An enumeration has its outer keys, and keys for each variant with several slots. -/
theorem enumerations_variantCoding : n.variantCoding.enumerations =
    (outerKeys, n.variants.map Variant.name) ::
      n.keyedVariants.map fun v => (v.keysName, positionalKeys v.arity) := by
  have inner (vs : List Variant) :
      (vs.filterMap Variant.innerKeys?).filterMap CodeMember.enumeration? =
        (vs.filter Variant.isKeyed).map fun v => (v.keysName, positionalKeys v.arity) := by
    induction vs with
    | nil => rfl
    | cons v vs ih =>
      by_cases several : 2 ≤ v.arity <;>
        simpa [Variant.innerKeys?, Variant.isKeyed, several, CodeMember.enumeration?] using ih
  simp [variantCoding, Codable.ofVariants, Extension.enumerations, CodeMember.enumeration?,
    List.filterMap_append, inner, keyedVariants]

/-- The stores below keys are opened in order, for writing and then for reading. -/
theorem opened_variantCoding : n.variantCoding.opened =
    (n.keyedVariants ++ n.keyedVariants).map fun v => (v.keysName, v.name) := by
  have stores (vs : List Variant) : vs.flatMap Variant.store =
      (vs.filter Variant.isKeyed).map fun v => (v.keysName, v.name) := by
    induction vs with
    | nil => rfl
    | cons v vs ih => cases keyed : v.isKeyed <;> simp [Variant.store, keyed, ih]
  have keys (vs : List Variant) :
      (vs.filterMap Variant.innerKeys?).flatMap CodeMember.opened = [] := by
    induction vs with
    | nil => rfl
    | cons v vs ih =>
      by_cases several : 2 ≤ v.arity <;>
        simpa [Variant.innerKeys?, several, CodeMember.opened] using ih
  have writing : (Codable.encodeVariants n.variants).flatMap Statement.opened =
      n.variants.flatMap Variant.store := by
    cases n.variants <;>
      simp [Codable.encodeVariants, Statement.opened, List.flatMap_map,
        Variant.opened_encodeSteps, Step.opened?]
  have reading : (Codable.decodeVariants n.head.name n.variants).flatMap Statement.opened =
      n.variants.flatMap Variant.store := by
    cases n.variants <;>
      simp [Codable.decodeVariants, Statement.opened, List.flatMap_map,
        Variant.opened_decodeSteps, Step.opened?]
  simp [variantCoding, Codable.ofVariants, Extension.opened, CodeMember.opened, keys, writing,
    reading, stores, keyedVariants]

end Nominal

/-! ## Names that are distinct -/

/-- Members of a list have distinct images just if each is the only one with its image. -/
theorem nodup_map_iff_filter {α β : Type} [DecidableEq β] {f : α → β} {l : List α} :
    (l.map f).Nodup ↔ ∀ a ∈ l, l.filter (fun b => f b == f a) = [a] := by
  induction l with
  | nil => simp
  | cons x l ih =>
    rw [List.map_cons, List.nodup_cons, ih, List.forall_mem_cons,
      List.filter_cons_of_pos (by simp), List.cons.injEq, List.filter_eq_nil_iff]
    constructor
    · rintro ⟨new, others⟩
      have none (b : α) (mem : b ∈ l) : f b ≠ f x := fun same =>
        new (List.mem_map.mpr ⟨b, mem, same⟩)
      refine ⟨⟨rfl, fun b mem => by simpa using none b mem⟩, fun a mem => ?_⟩
      rw [List.filter_cons_of_neg (by simpa using (none a mem).symm)]
      exact others a mem
    · rintro ⟨⟨-, none⟩, others⟩
      refine ⟨fun mem => ?_, fun a mem => ?_⟩
      · obtain ⟨b, inside, same⟩ := List.mem_map.mp mem
        exact none b inside (by simpa using same)
      · have different : ¬(f x == f a) = true := by
          simpa using fun same : f x = f a => none a mem (by simpa using same.symm)
        simpa [different] using others a mem

namespace Nominal

variable {n : Nominal}

/-- Where the names of keys are others than that of the outer keys, they are distinct just if
under each name there are the keys of its own variant, and no other. -/
theorem nodup_keysName_iff (outer : ∀ v ∈ n.keyedVariants, v.keysName ≠ outerKeys) :
    (n.keyedVariants.map Variant.keysName).Nodup ↔ ∀ v ∈ n.keyedVariants,
      n.variantCoding.enumerations.filter (fun e => e.1 == v.keysName) =
        [(v.keysName, positionalKeys v.arity)] := by
  rw [nodup_map_iff_filter]
  refine forall₂_congr fun v mem => ?_
  have named : n.variantCoding.enumerations.filter (fun e => e.1 == v.keysName) =
      (n.keyedVariants.filter fun w => w.keysName == v.keysName).map
        fun w => (w.keysName, positionalKeys w.arity) := by
    rw [enumerations_variantCoding, List.filter_cons_of_neg (by simpa using (outer v mem).symm),
      List.filter_map]
    rfl
  rw [named]
  constructor
  · intro only
    rw [only]
    rfl
  · intro single
    obtain ⟨w, only, -⟩ := List.map_eq_singleton_iff.mp single
    have itself : v ∈ n.keyedVariants.filter fun w => w.keysName == v.keysName :=
      List.mem_filter.mpr ⟨mem, by simp⟩
    rw [only] at itself ⊢
    rw [List.mem_singleton.mp itself]

end Nominal

/-! ## Cases of a source -/

namespace Grammar

/-- The names of the cases that are recorded. -/
def namePhrases : Gather Property CaseGroup Header (List Token) where
  property _ := []
  cases c := c.cases.toList.flatMap fun e => [[e.name.val]]
  head _ := []

theorem agrees_names :
    Agrees (recordedCases.flatMap fun e => [e.name]) namePhrases Token.stretch where
  property _ := rfl
  cases c := by
    have name (e : CaseSyntax) : e.element.name = Token.stretch [e.name.val] :=
      (Token.stretch_singleton _).symm
    simp only [Gather.flatMap, recordedCases, CaseGroup.declaration, namePhrases,
      List.flatMap_map, List.map_flatMap, List.map_cons, List.map_nil, name]
  head _ := rfl

/-- Recorded names of cases are parts of the source. -/
theorem takes_names : Takes namePhrases IsIdentifier where
  property _ _ mem := nomatch mem
  cases c ts mem := by
    have each (e : CaseSyntax) :
        ∀ ts ∈ [[e.name.val]], ts <:+: e.tokens ∧ IsIdentifier ts := by
      rintro ts mem
      obtain rfl := List.mem_singleton.mp mem
      exact ⟨⟨[], _, rfl⟩, e.name.val, rfl, e.name.property⟩
    obtain ⟨part, is⟩ := takes_listed each c.cases ts mem
    exact ⟨part.trans c.infix_cases, is⟩
  head _ _ mem := nomatch mem

end Grammar

/-- What is taken from a member is taken from all members. -/
theorem Member.mem_gatherAll {α : Type} {g : Gather PropertyDecl CaseDecl NominalHead α}
    {m : Member} {ms : List Member} (mem : m ∈ ms) {a : α} (taken : a ∈ m.gather g) :
    a ∈ Member.gatherAll g ms := by
  induction mem with
  | head => exact List.mem_append_left _ taken
  | tail _ _ ih => exact List.mem_append_right _ ih

/-- The variant of a case has its name. -/
theorem CaseElement.name_variant (e : CaseElement) : e.variant.name = e.name := by
  unfold variant
  split <;> rfl

namespace SourceFile

variable {text : String} {filename : Option String} {f : SourceFile}

/-- The name of a case of an accepted source is a word. -/
theorem isWord_name (accepted : read text filename = .ok f) {e : CaseElement} (mem : e ∈ f.cases) :
    IsWord e.name :=
  isWord_of_gather agrees_names takes_names accepted (mem_gather_of_case mem (.head _))

/-- A variant of a type is that of a case of the source. -/
theorem exists_case_of_variant {n : Nominal} (mem : n ∈ f.nominals) {v : Variant}
    (variant : v ∈ n.variants) : ∃ e ∈ f.cases, e.variant = v := by
  obtain ⟨d, declared, is⟩ := List.mem_filterMap.mp mem
  obtain ⟨m, member, inside⟩ := List.mem_flatMap.mp variant
  cases d with
  | nominal n' =>
    obtain rfl := Option.some.inj is
    cases m with
    | cases c =>
      obtain ⟨e, element, rfl⟩ := List.mem_map.mp inside
      refine ⟨e, List.mem_flatMap.mpr ⟨.nominal n', declared, ?_⟩, rfl⟩
      exact List.mem_append_right _ (Member.mem_gatherAll member element)
    | _ => cases inside
  | _ => cases is

/-- The name of a variant of an accepted source is a word. -/
theorem isWord_variant (accepted : read text filename = .ok f) {n : Nominal}
    (mem : n ∈ f.nominals) {v : Variant} (variant : v ∈ n.variants) : IsWord v.name := by
  obtain ⟨e, recorded, rfl⟩ := exists_case_of_variant mem variant
  exact e.name_variant ▸ isWord_name accepted recorded

/-- The keys of an enumeration of an accepted source.  There is an enumeration of keys for each
variant with several slots, and every store below a key is opened under the name that is made of
that variant's.  No such name is `CodingKeys`.  The names are distinct just if the names of the
variants are when they are capitalized, which is so if these are distinct and begin with small
letters of ASCII.  And they are distinct just if each names the keys of its own variant alone. -/
theorem read_keysNames (accepted : read text filename = .ok f) {n : Nominal}
    (mem : n ∈ f.nominals) :
    n.variantCoding.enumerations = (outerKeys, n.variants.map Variant.name) ::
      n.keyedVariants.map (fun v => (v.keysName, positionalKeys v.arity)) ∧
    n.variantCoding.opened =
      (n.keyedVariants ++ n.keyedVariants).map (fun v => (v.keysName, v.name)) ∧
    (∀ v ∈ n.keyedVariants, v.keysName ≠ outerKeys) ∧
    ((n.keyedVariants.map Variant.keysName).Nodup ↔
      (n.keyedVariants.map fun v => Text.capitalized v.bareName).Nodup) ∧
    ((∀ v ∈ n.keyedVariants, v.bareName.head?.any Char.isLower = true) →
      (n.keyedVariants.map Variant.bareName).Nodup →
      (n.keyedVariants.map Variant.keysName).Nodup) ∧
    ((n.keyedVariants.map Variant.keysName).Nodup ↔ ∀ v ∈ n.keyedVariants,
      n.variantCoding.enumerations.filter (fun e => e.1 == v.keysName) =
        [(v.keysName, positionalKeys v.arity)]) := by
  have outer : ∀ v ∈ n.keyedVariants, v.keysName ≠ outerKeys := fun v keyed =>
    Variant.keysName_ne
      (Variant.bareName_of_isWord (isWord_variant accepted mem (List.mem_filter.mp keyed).1)).1
  have capitals : (n.keyedVariants.map Variant.keysName).Nodup ↔
      (n.keyedVariants.map fun v => Text.capitalized v.bareName).Nodup := by
    simp only [List.Nodup, List.pairwise_map, ne_eq, Variant.keysName_eq_iff]
  exact ⟨n.enumerations_variantCoding, n.opened_variantCoding, outer, capitals,
    fun small distinct => capitals.mpr (Variant.nodup_capitalized small distinct),
    Nominal.nodup_keysName_iff outer⟩

/-- An enumeration with two cases that have several slots, one with a back-quoted name. -/
def keyedText : String :=
  "enum E \x7b case a(Int, Int), b, \x60default\x60(x: Int, String), d(Int) \x7d"

theorem read_keyedText :
    ∃ f n, read keyedText none = .ok f ∧ n ∈ f.nominals ∧
      (n.keyedVariants.map Variant.keysName).Nodup ∧
      n.variantCoding.opened = [("ACodingKeys", "a"), ("DefaultCodingKeys", "\x60default\x60"),
        ("ACodingKeys", "a"), ("DefaultCodingKeys", "\x60default\x60")] := by
  have seen : (read keyedText none).toOption.map (fun f => f.nominals.map Nominal.variants) =
      some [[⟨"a", some [⟨"v0", "Int", false⟩, ⟨"v1", "Int", false⟩]⟩, ⟨"b", none⟩,
        ⟨"\x60default\x60", some [⟨"x", "Int", true⟩, ⟨"v1", "String", false⟩]⟩,
        ⟨"d", some [⟨"v0", "Int", false⟩]⟩]] := by decide +kernel
  obtain ⟨f, accepted, found⟩ := exists_ok_of _ seen
  obtain ⟨n, one, variants⟩ := List.map_eq_singleton_iff.mp found
  have mem : n ∈ f.nominals := by simp [one]
  obtain ⟨-, opened, -, -, distinct, -⟩ := read_keysNames accepted mem
  rw [Nominal.keyedVariants, variants] at distinct opened
  refine ⟨f, n, accepted, mem, ?_, opened.trans (by decide)⟩
  rw [Nominal.keyedVariants, variants]
  exact distinct (by decide) (by decide)

/-- Two cases whose names differ only in how the first letter is written. -/
def collidingText : String := "enum E \x7b case a(Int, Int), A(Int, Int, Int) \x7d"

/-- An enumeration with cases of distinct names and one name for the keys of both. -/
theorem read_collidingKeys :
    ∃ f n, read collidingText none = .ok f ∧ f.nominals = [n] ∧ n.head.kind = .enumKind ∧
      (n.variants.map Variant.bareName).Nodup ∧
      ¬(n.keyedVariants.map Variant.keysName).Nodup ∧
      n.variantCoding.enumerations = [("CodingKeys", ["a", "A"]), ("ACodingKeys", ["_0", "_1"]),
        ("ACodingKeys", ["_0", "_1", "_2"])] := by
  have seen : (read collidingText none).toOption.map
      (fun f => f.nominals.map fun n => (n.head.kind, n.variants)) =
      some [(.enumKind, [⟨"a", some [⟨"v0", "Int", false⟩, ⟨"v1", "Int", false⟩]⟩,
        ⟨"A", some [⟨"v0", "Int", false⟩, ⟨"v1", "Int", false⟩, ⟨"v2", "Int", false⟩]⟩])] := by
    decide +kernel
  obtain ⟨f, accepted, found⟩ := exists_ok_of _ seen
  obtain ⟨n, one, both⟩ := List.map_eq_singleton_iff.mp found
  obtain ⟨kind, variants⟩ := Prod.mk.inj both
  refine ⟨f, n, accepted, one, kind, ?_, ?_, ?_⟩
  · rw [variants]
    decide
  · rw [Nominal.keyedVariants, variants]
    decide
  · rw [Nominal.enumerations_variantCoding, Nominal.keyedVariants, variants]
    decide

end SourceFile

end Conformance
