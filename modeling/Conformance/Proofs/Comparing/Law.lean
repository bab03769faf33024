import Conformance.Proofs.Code.Shown
import Conformance.Proofs.Comparing.Runs

/-!
# Equal values have equal hashes

Generated equality compares two values component by component, and both generated hashes are
fed the same parts of a value in the same order (`Value.parts`).  So two values are equal
exactly if what is fed of them is equal item by item (`lawful_extensions`).

An enumeration goes by the name of the variant first.  Names that differ in back quotes
only would be one name in a hash, so the names are to differ without them.
-/

namespace Conformance.Comparing

variable {α : Type}

/-! ## The law -/

/-- Two values are of one variant, or both of the structure, and agree on each component. -/
def Value.Agree (equal : α → α → Bool) : Value α → Value α → Prop
  | product as, product bs =>
    List.Forall₂ (fun a b => equal a b = true) (as.map Prod.snd) (bs.map Prod.snd)
  | sum name as, sum name' bs => name = name' ∧ List.Forall₂ (fun a b => equal a b = true) as bs
  | _, _ => False

/-- Two items are equal. -/
def Item.Agree (equal : α → α → Bool) : Item α → Item α → Prop
  | text as, text bs => as = bs
  | component a, component b => equal a b = true
  | _, _ => False

/-- Equality is agreement, and what is fed to a hash of two values is equal exactly if the values
are. -/
structure Lawful (p : Program α) (type : String) (hashing stableHashing : Bool)
    (IsOfType : Value α → Prop) : Prop where
  /-- Equality comes to the right verdict. -/
  equals : ∀ a b, IsOfType a → IsOfType b → ∃ same, p.equals type a b = some same ∧
    (same = true ↔ Value.Agree p.equal a b)
  /-- The hash for one run is fed equal items exactly of equal values. -/
  hash : hashing = true → ∀ a b, IsOfType a → IsOfType b → ∃ as bs,
    p.hash a = some as ∧ p.hash b = some bs ∧
      (List.Forall₂ (Item.Agree p.equal) as bs ↔ p.equals type a b = some true)
  /-- So is the stable hash. -/
  stableHash : stableHashing = true → ∀ a b, IsOfType a → IsOfType b → ∃ as bs,
    p.stableHash a = some as ∧ p.stableHash b = some bs ∧
      (List.Forall₂ (Item.Agree p.equal) as bs ↔ p.equals type a b = some true)

/-! ## The parts of a value -/

/-- What of a value is fed to a hash. -/
def Value.parts : Value α → List (Item α)
  | product fields => (fields.map Prod.snd).map .component
  | sum name slots => .text (Variant.bareName ⟨name, none⟩) :: slots.map .component

theorem forall₂_component {equal : α → α → Bool} {as bs : List α} :
    List.Forall₂ (Item.Agree equal) (as.map .component) (bs.map .component) ↔
      List.Forall₂ (fun a b => equal a b = true) as bs := by
  rw [List.forall₂_map_left_iff, List.forall₂_map_right_iff]
  rfl

/-- The law holds where equality is agreement, parts are what is fed, and the parts of values tell
them apart. -/
theorem Lawful.of_parts {p : Program α} {type : String} {hashing stableHashing : Bool}
    {IsOfType : Value α → Prop}
    (equals : ∀ a b, IsOfType a → IsOfType b → ∃ same, p.equals type a b = some same ∧
      (same = true ↔ Value.Agree p.equal a b))
    (hash : hashing = true → ∀ a, IsOfType a → p.hash a = some a.parts)
    (stableHash : stableHashing = true → ∀ a, IsOfType a → p.stableHash a = some a.parts)
    (parts : ∀ a b, IsOfType a → IsOfType b →
      (List.Forall₂ (Item.Agree p.equal) a.parts b.parts ↔ Value.Agree p.equal a b)) :
    Lawful p type hashing stableHashing IsOfType := by
  have same : ∀ a b, IsOfType a → IsOfType b →
      (List.Forall₂ (Item.Agree p.equal) a.parts b.parts ↔ p.equals type a b = some true) := by
    intro a b isA isB
    obtain ⟨verdict, comes, agree⟩ := equals a b isA isB
    rw [parts a b isA isB, comes, Option.some.injEq, agree]
  refine ⟨equals, fun on a b isA isB => ?_, fun on a b isA isB => ?_⟩
  · exact ⟨_, _, hash on a isA, hash on b isB, same a b isA isB⟩
  · exact ⟨_, _, stableHash on a isA, stableHash on b isB, same a b isA isB⟩

/-! ## By fields -/

/-- A value of a structure or class with some fields. -/
def Value.HasFields (fields : List Field) : Value α → Prop
  | product components => components.map Prod.fst = fields.map Field.name
  | sum .. => False

section
variable (names : StableHashNames) (type : String) (isPublic hashing stableHashing : Bool)
  (equal : α → α → Bool)

/-- The comparing code of a structure or class. -/
def Program.ofFields (fields : List Field) : Program α :=
  ⟨Equality.fieldExtensions names type fields isPublic hashing stableHashing, names, equal⟩

variable {fields : List Field}

theorem body?_equals_ofFields :
    (Program.ofFields names type isPublic hashing stableHashing equal fields).body?
      (.equals type) = some [.step (.returnEqual
        (fields.map fun f => ("lhs." ++ f.name, "rhs." ++ f.name)))] := by
  simp [Program.body?, Program.ofFields, Equality.fieldExtensions, Equality.ofFields,
    Extension.body?, CodeMember.body?]

theorem body?_hash_ofFields (on : hashing = true) :
    (Program.ofFields names type isPublic hashing stableHashing equal fields).body? .hash =
      some ((fields.map fun f => Step.feed f.name).map .step) := by
  simp [Program.body?, Program.ofFields, Equality.fieldExtensions, Equality.ofFields,
    Equality.hashOfFields, Extension.body?, CodeMember.body?, on]

theorem body?_stableHash_ofFields (on : stableHashing = true) :
    (Program.ofFields names type isPublic hashing stableHashing equal fields).body?
      (.stableHash names.property) = some (Equality.stableBody
        ((fields.map fun f => Step.mix names.combine f.name names.property).map .step)) := by
  cases hashing <;>
  simp [Program.body?, Program.ofFields, Equality.fieldExtensions, Equality.ofFields,
    Equality.hashOfFields, Equality.stableHashOfFields, Extension.body?, CodeMember.body?, on,
    Function.comp_def]

variable {names type isPublic hashing stableHashing equal}

theorem equals_ofFields (nodup : (fields.map Field.name).Nodup) {a b : Value α}
    (isA : a.HasFields fields) (isB : b.HasFields fields) :
    ∃ same, (Program.ofFields names type isPublic hashing stableHashing equal fields).equals
        type a b = some same ∧ (same = true ↔ Value.Agree equal a b) := by
  cases a with
  | sum => cases isA
  | product as =>
    cases b with
    | sum => cases isB
    | product bs =>
      let p := Program.ofFields names type isPublic hashing stableHashing equal fields
      let start : State α :=
        ⟨none, [("lhs", .value (.product as)), ("rhs", .value (.product bs))], []⟩
      have free : ∀ name ∈ start.locals.map Prod.fst, '.' ∉ name.toList := by
        show ∀ name ∈ ["lhs", "rhs"], '.' ∉ name.toList
        decide
      have lefts := reads_dotted (s := start) isA nodup "lhs" "lhs." rfl (by decide) rfl rfl free
      have rights := reads_dotted (s := start) isB nodup "rhs" "rhs." rfl (by decide) rfl rfl free
      have length : (as.map Prod.snd).length = (bs.map Prod.snd).length :=
        lefts.length_eq.symm.trans rights.length_eq
      refine ⟨allEqual equal (as.map Prod.snd) (bs.map Prod.snd), ?_, ?_⟩
      · have verdict : runStatement p start (.step (.returnEqual
            (fields.map fun f => ("lhs." ++ f.name, "rhs." ++ f.name)))) =
              some (.verdict (allEqual equal (as.map Prod.snd) (bs.map Prod.snd))) :=
          runStep_returnEqual lefts rights
        refine Program.equals_of_run (body?_equals_ofFields ..) ?_
        exact runBody_verdict verdict []
      · exact allEqual_iff length

theorem hash_ofFields (on : hashing = true) (nodup : (fields.map Field.name).Nodup)
    (other : ∀ f ∈ fields, f.name ≠ hasherName) {a : Value α} (isA : a.HasFields fields) :
    (Program.ofFields names type isPublic hashing stableHashing equal fields).hash a =
      some a.parts := by
  cases a with
  | sum => cases isA
  | product as =>
    let p := Program.ofFields names type isPublic hashing stableHashing equal fields
    let start : State α := ⟨some (.product as), [(hasherName, .hash)], []⟩
    have reads : Reads start Field.name fields (as.map Prod.snd) := by
      refine reads_fields isA nodup rfl fun f mem => ?_
      simp [start, List.lookup_cons, beq_false_of_ne (other f mem)]
    have run := runSteps_feeds (feeds_feed p) (List.lookup_cons_self ..) reads
    rw [← runBody_steps] at run
    exact Program.hash_of_run
      (body?_hash_ofFields names type isPublic hashing stableHashing equal on) run

theorem stableHash_ofFields (on : stableHashing = true) (nodup : (fields.map Field.name).Nodup)
    (other : ∀ f ∈ fields, f.name ≠ hashName) {a : Value α} (isA : a.HasFields fields) :
    (Program.ofFields names type isPublic hashing stableHashing equal fields).stableHash a =
      some a.parts := by
  cases a with
  | sum => cases isA
  | product as =>
    let p := Program.ofFields names type isPublic hashing stableHashing equal fields
    let start : State α := ⟨some (.product as), [(hashName, .hash)], []⟩
    have reads : Reads start Field.name fields (as.map Prod.snd) := by
      refine reads_fields isA nodup rfl fun f mem => ?_
      simp [start, List.lookup_cons, beq_false_of_ne (other f mem)]
    have run := runSteps_feeds (feeds_mix p) (List.lookup_cons_self ..) reads
    rw [← runBody_steps] at run
    exact Program.stableHash_of_mixing
      (body?_stableHash_ofFields names type isPublic hashing stableHashing equal on) run
      (List.lookup_cons_self ..)

/-- The law holds of structures and classes. -/
theorem lawful_ofFields (nodup : (fields.map Field.name).Nodup)
    (other : ∀ f ∈ fields, f.name ≠ hasherName ∧ f.name ≠ hashName) :
    Lawful (Program.ofFields names type isPublic hashing stableHashing equal fields) type hashing
      stableHashing (Value.HasFields fields) := by
  refine .of_parts (fun a b => equals_ofFields nodup) ?_ ?_ ?_
  · intro on a isA
    exact hash_ofFields on nodup (fun f mem => (other f mem).1) isA
  · intro on a isA
    exact stableHash_ofFields on nodup (fun f mem => (other f mem).2) isA
  · intro a b isA isB
    cases a with
    | sum => cases isA
    | product as =>
      cases b with
      | sum => cases isB
      | product bs =>
        exact forall₂_component

end

/-! ## By variants -/

/-- A value of an enumeration with some variants. -/
def Value.HasVariant (variants : List Variant) : Value α → Prop
  | product _ => False
  | sum name slots => ∃ v ∈ variants, v.name = name ∧ v.slots.length = slots.length

/-- Variants whose names differ without back quotes, and whose slots differ in their labels. -/
structure Distinct (variants : List Variant) : Prop where
  /-- No two variants have the same name. -/
  names : (variants.map Variant.bareName).Nodup
  /-- No two slots of a variant have the same label. -/
  labels : ∀ v ∈ variants, (v.slots.map Slot.label).Nodup

/-- Names that differ without back quotes differ. -/
theorem Distinct.fullNames {variants : List Variant} (distinct : Distinct variants) :
    (variants.map Variant.name).Nodup := by
  refine List.Nodup.of_map (fun name => Variant.bareName ⟨name, none⟩) ?_
  rw [List.map_map]
  exact distinct.names

section
variable (names : StableHashNames) (type : String) (isPublic hashing stableHashing : Bool)
  (equal : α → α → Bool)

/-- The comparing code of an enumeration. -/
def Program.ofVariants (variants : List Variant) : Program α :=
  ⟨Equality.variantExtensions names type variants isPublic hashing stableHashing, names, equal⟩

variable {variants : List Variant}

theorem body?_variantName_ofVariants :
    (Program.ofVariants names type isPublic hashing stableHashing equal variants).body?
      .variantName = some [.returnName (variants.map fun v => (v.name, v.nameLiteral))] := by
  simp [Program.body?, Program.ofVariants, Equality.variantExtensions, Equality.ofVariants,
    Extension.body?, CodeMember.body?]

theorem body?_equals_ofVariants :
    (Program.ofVariants names type isPublic hashing stableHashing equal variants).body?
      (.equals type) = some (.step .requireSameName ::
        Equality.payloadSwitch "lhs" variants leftPrefix Equality.comparePayload ++
          [.step .blank, .step .returnTrue]) := by
  simp [Program.body?, Program.ofVariants, Equality.variantExtensions, Equality.ofVariants,
    Extension.body?, CodeMember.body?]

/-- The body that feeds the name of the variant and then the slots. -/
def feedBody (variants : List Variant) (feed : String → Step) : List Statement :=
  .step (feed nameProperty) :: Equality.payloadSwitch "self" variants payloadPrefix fun v =>
    (v.boundNames payloadPrefix).map feed

theorem body?_hash_ofVariants (on : hashing = true) :
    (Program.ofVariants names type isPublic hashing stableHashing equal variants).body? .hash =
      some (feedBody variants .feed) := by
  simp [Program.body?, Program.ofVariants, Equality.variantExtensions, Equality.ofVariants,
    Equality.hashOfVariants, Extension.body?, CodeMember.body?, feedBody, on]

theorem body?_stableHash_ofVariants (on : stableHashing = true) :
    (Program.ofVariants names type isPublic hashing stableHashing equal variants).body?
      (.stableHash names.property) = some (Equality.stableBody
        (feedBody variants fun name => .mix names.combine name names.property)) := by
  cases hashing <;>
  simp [Program.body?, Program.ofVariants, Equality.variantExtensions, Equality.ofVariants,
    Equality.hashOfVariants, Equality.stableHashOfVariants, Extension.body?, CodeMember.body?,
    feedBody, on]

variable {names type isPublic hashing stableHashing equal} {v : Variant} {as bs : List α}

/-- The property for the name of a variant has its name without back quotes. -/
theorem nameOf?_ofVariants (distinct : Distinct variants) (mem : v ∈ variants) :
    (Program.ofVariants names type isPublic hashing stableHashing equal variants).nameOf?
      (.sum v.name as) = some v.bareName := by
  have keys : ((variants.map fun v => (v.name, v.nameLiteral)).map Prod.fst).Nodup := by
    rw [List.map_map]
    exact distinct.fullNames
  have found := lookup_of_mem [] keys (List.mem_map_of_mem mem)
  rw [List.append_nil] at found
  simp only [Program.nameOf?, body?_variantName_ofVariants]
  rw [found, Option.bind_some, Variant.nameLiteral, literal?_stringLiteral]

theorem slots_eq_nil (without : v.hasPayload = false) : v.slots = [] := by
  simpa [Variant.hasPayload] using without

/-! ### Hashes -/

/-- The parts of a value are fed, in either kind of step. -/
theorem runBody_feedBody {p : Program α} (distinct : Distinct variants) (mem : v ∈ variants)
    (length : v.slots.length = as.length) (name : p.nameOf? (.sum v.name as) = some v.bareName)
    {hash : String} {feed : String → Step} (feeds : Feeds p hash feed)
    (apart : hash.toList.head? = some 'h') :
    runBody p ⟨some (.sum v.name as), [(hash, .hash)], []⟩ (feedBody variants feed) =
      some (.onward ⟨some (.sum v.name as), [(hash, .hash)], (Value.sum v.name as).parts⟩) := by
  let start : State α := ⟨some (.sum v.name as), [(hash, .hash)], []⟩
  let named := start.feed (.text v.bareName)
  have notLocal : start.locals.lookup nameProperty = none := by
    have ne : nameProperty ≠ hash := by
      rintro rfl
      cases apart
    simp [start, List.lookup_cons, beq_false_of_ne ne]
  have first : runStatement p start (.step (feed nameProperty)) = some (.onward named) := by
    have item : start.item? p nameProperty = some (.text v.bareName) := by
      simp only [State.item?, notLocal, start, if_true, name, Option.map_some]
    exact (feeds start nameProperty (List.lookup_cons_self ..)).trans (by rw [item]; rfl)
  rw [feedBody, runBody_cons first]
  have self : named.value? "self" = some (.sum v.name as) := rfl
  cases carries : v.hasPayload with
  | false =>
    rw [slots_eq_nil carries] at length
    cases List.eq_nil_of_length_eq_zero length.symm
    exact runBody_payloadSwitch_none distinct.fullNames mem carries self
  | true =>
    let inner := named.bound (v.boundNames payloadPrefix) as
    have here : inner.locals.lookup hash = some .hash := by
      have heads : hash.toList.head? ≠ some 'p' := by
        rw [apart]
        decide
      exact (lookup_bound length fun slot _ => boundName_ne_of_head (by rfl) heads slot).trans
        (List.lookup_cons_self ..)
    have reads := (holds_bound named payloadPrefix length (distinct.labels v mem)).reads
    have run := runSteps_feeds feeds here reads
    have steps : (v.boundNames payloadPrefix).map feed =
        v.slots.map fun slot => feed (Variant.boundName payloadPrefix slot) := by
      rw [Variant.boundNames, List.map_map]
      rfl
    rw [runBody_payloadSwitch_some distinct.fullNames mem carries self length, steps, run]
    rfl

theorem hash_ofVariants (on : hashing = true) (distinct : Distinct variants) {a : Value α}
    (isA : a.HasVariant variants) :
    (Program.ofVariants names type isPublic hashing stableHashing equal variants).hash a =
      some a.parts := by
  cases a with
  | product => cases isA
  | sum name as =>
    obtain ⟨v, mem, rfl, length⟩ := isA
    exact Program.hash_of_run (body?_hash_ofVariants names type isPublic hashing stableHashing equal on)
      (runBody_feedBody distinct mem length (nameOf?_ofVariants distinct mem) (feeds_feed _) (by rfl))

theorem stableHash_ofVariants (on : stableHashing = true) (distinct : Distinct variants)
    {a : Value α} (isA : a.HasVariant variants) :
    (Program.ofVariants names type isPublic hashing stableHashing equal variants).stableHash a =
      some a.parts := by
  cases a with
  | product => cases isA
  | sum name as =>
    obtain ⟨v, mem, rfl, length⟩ := isA
    exact Program.stableHash_of_mixing
      (body?_stableHash_ofVariants names type isPublic hashing stableHashing equal on)
      (runBody_feedBody distinct mem length (nameOf?_ofVariants distinct mem) (feeds_mix _) (by rfl))
      (List.lookup_cons_self ..)

/-! ### Equality -/

/-- Payloads of one variant are compared slot by slot. -/
theorem runBody_compare {p : Program α} (distinct : Distinct variants) (mem : v ∈ variants)
    (lengthA : v.slots.length = as.length) (lengthB : v.slots.length = bs.length) :
    let start : State α :=
      ⟨none, [("lhs", .value (.sum v.name as)), ("rhs", .value (.sum v.name bs))], []⟩
    runBody p start (Equality.payloadSwitch "lhs" variants leftPrefix Equality.comparePayload) =
      some (guarded (allEqual p.equal as bs) start) := by
  intro start
  have left : start.value? "lhs" = some (.sum v.name as) := rfl
  cases carries : v.hasPayload with
  | false =>
    rw [slots_eq_nil carries] at lengthA lengthB
    cases List.eq_nil_of_length_eq_zero lengthA.symm
    cases List.eq_nil_of_length_eq_zero lengthB.symm
    rw [runBody_payloadSwitch_none distinct.fullNames mem carries left]
    rfl
  | true =>
    let outer := start.bound (v.boundNames leftPrefix) as
    let inner := outer.bound (v.boundNames rightPrefix) bs
    have right : outer.value? "rhs" = some (.sum v.name bs) := by
      have same : outer.locals.lookup "rhs" = start.locals.lookup "rhs" :=
        lookup_bound lengthA fun slot _ => boundName_ne_of_head (c := 'l') (by rfl) (by decide) slot
      simp only [State.value?, same]
      rfl
    have fits : (v.boundNames rightPrefix).length = bs.length := by
      rw [Variant.boundNames, List.length_map, lengthB]
    have matches' : runStep p outer (.requireRight (v.pattern rightPrefix)) =
        some (.onward inner) := by
      simp only [runStep, right, Variant.pattern, bind, Option.bind, if_true]
      rw [State.bindAll_of_length fits]
      rfl
    have apart : ∀ a b : Slot,
        Variant.boundName rightPrefix a ≠ Variant.boundName leftPrefix b := by
      intro a b
      exact boundName_ne_of_head (c := 'r') (by rfl) (by simp [Variant.boundName, leftPrefix]) a
    have lefts := ((holds_bound start leftPrefix lengthA (distinct.labels v mem)).bound lengthB
      apart).reads
    have rights := (holds_bound outer rightPrefix lengthB (distinct.labels v mem)).reads
    have run := runSteps_requireEqual (p := p) lefts rights
    rw [runBody_payloadSwitch_some distinct.fullNames mem carries left lengthA,
      Equality.comparePayload, runSteps_cons matches']
    refine (congrArg (Option.bind · _) run).trans ?_
    cases allEqual p.equal as bs <;> rfl

theorem equals_ofVariants (distinct : Distinct variants) {a b : Value α}
    (isA : a.HasVariant variants) (isB : b.HasVariant variants) :
    ∃ same, (Program.ofVariants names type isPublic hashing stableHashing equal variants).equals
        type a b = some same ∧ (same = true ↔ Value.Agree equal a b) := by
  cases a with
  | product => cases isA
  | sum name as =>
    cases b with
    | product => cases isB
    | sum name' bs =>
      obtain ⟨v, memV, rfl, lengthA⟩ := isA
      obtain ⟨w, memW, rfl, lengthB⟩ := isB
      let p := Program.ofVariants names type isPublic hashing stableHashing equal variants
      let start : State α :=
        ⟨none, [("lhs", .value (.sum v.name as)), ("rhs", .value (.sum w.name bs))], []⟩
      have code : p.body? (.equals type) = _ := body?_equals_ofVariants ..
      have guard : runStatement p start (.step .requireSameName) =
          some (guarded (v.bareName == w.bareName) start) := by
        have left : start.value? "lhs" = some (.sum v.name as) := rfl
        have right : start.value? "rhs" = some (.sum w.name bs) := rfl
        simp only [runStatement, runStep, left, right, p, nameOf?_ofVariants distinct memV,
          nameOf?_ofVariants distinct memW, bind, Option.bind]
        rfl
      cases same : v.bareName == w.bareName with
      | false =>
        rw [same] at guard
        refine ⟨false, Program.equals_of_run code (runBody_verdict guard _), ?_⟩
        simp only [Bool.false_eq_true, false_iff]
        rintro ⟨names, -⟩
        have bare : v.bareName = w.bareName := by
          rw [Variant.bareName, names]
          rfl
        exact absurd bare (beq_eq_false_iff_ne.mp same)
      | true =>
        have sameVariant : v = w :=
          List.inj_on_of_nodup_map distinct.names memV memW (beq_iff_eq.mp same)
        subst sameVariant
        rw [same] at guard
        have length : as.length = bs.length := lengthA.symm.trans lengthB
        refine ⟨allEqual equal as bs, Program.equals_of_run code ?_, ?_⟩
        · have compared : runBody p start (Equality.payloadSwitch "lhs" variants leftPrefix
              Equality.comparePayload) = some (guarded (allEqual equal as bs) start) :=
            runBody_compare distinct memV lengthA lengthB
          rw [List.cons_append, runBody_cons guard, runBody_append, compared]
          cases allEqual equal as bs <;> rfl
        · rw [allEqual_iff length]
          exact (and_iff_right rfl).symm

/-- The law holds of enumerations. -/
theorem lawful_ofVariants (distinct : Distinct variants) :
    Lawful (Program.ofVariants names type isPublic hashing stableHashing equal variants) type
      hashing stableHashing (Value.HasVariant variants) := by
  refine .of_parts (fun a b => equals_ofVariants distinct) ?_ ?_ ?_
  · intro on a isA
    exact hash_ofVariants on distinct isA
  · intro on a isA
    exact stableHash_ofVariants on distinct isA
  · intro a b isA isB
    cases a with
    | product => cases isA
    | sum name as =>
      cases b with
      | product => cases isB
      | sum name' bs =>
        obtain ⟨v, memV, rfl, -⟩ := isA
        obtain ⟨w, memW, rfl, -⟩ := isB
        rw [Value.parts, Value.parts, List.forall₂_cons, forall₂_component]
        refine and_congr_left fun _ => ⟨fun same => ?_, fun same => ?_⟩
        · exact congrArg Variant.name (List.inj_on_of_nodup_map distinct.names memV memW same)
        · exact congrArg (fun name => Variant.bareName ⟨name, none⟩) same

end

/-! ## Switches -/

/-- A switch over payloads has an arm for each variant or lets the others pass, and it lets pass
exactly if a variant without a payload stands among some with one. -/
def IsComplete (variants : List Variant) : Statement → Prop
  | .switch _ arms otherwise =>
    (∀ v ∈ variants, otherwise = true ∨ ∃ arm ∈ arms, arm.pattern.name = v.name) ∧
      (otherwise = true ↔
        (∃ v ∈ variants, v.hasPayload = false) ∧ ∃ v ∈ variants, v.hasPayload = true)
  | _ => True

section
variable {variants : List Variant} {subject before : String} {body : Variant → List Step}

theorem length_filter_lt_iff :
    (variants.filter Variant.hasPayload).length < variants.length ↔
      ∃ v ∈ variants, v.hasPayload = false := by
  have all := List.length_filter_eq_length_iff (p := Variant.hasPayload) (l := variants)
  rw [Nat.lt_iff_le_and_ne, and_iff_right (List.length_filter_le ..), Ne, all]
  simp

theorem isComplete_payloadSwitch {s : Statement}
    (mem : s ∈ Equality.payloadSwitch subject variants before body) : IsComplete variants s := by
  rw [Equality.payloadSwitch] at mem
  split at mem
  · cases mem
  next some =>
    obtain rfl := List.mem_singleton.mp mem
    obtain ⟨w, carries⟩ : ∃ w, w ∈ variants.filter Variant.hasPayload :=
      List.exists_mem_of_ne_nil _ (by simpa using some)
    obtain ⟨memW, carries⟩ := List.mem_filter.mp carries
    constructor
    · intro v mem
      cases payload : v.hasPayload with
      | true =>
        have arm : (⟨v.pattern before, body v⟩ : Arm) ∈
            (variants.filter Variant.hasPayload).map fun v => ⟨v.pattern before, body v⟩ :=
          List.mem_map_of_mem (List.mem_filter.mpr ⟨mem, payload⟩)
        exact .inr ⟨_, arm, rfl⟩
      | false => exact .inl (decide_eq_true (length_filter_lt_iff.mpr ⟨v, mem, payload⟩))
    · rw [decide_eq_true_iff, length_filter_lt_iff]
      exact (and_iff_left ⟨w, memW, carries⟩).symm

theorem isComplete_feedBody {feed : String → Step} {s : Statement}
    (mem : s ∈ feedBody variants feed) : IsComplete variants s := by
  rcases List.mem_cons.mp mem with rfl | switch
  · trivial
  · exact isComplete_payloadSwitch switch

/-- Every statement of the comparing code of an enumeration is complete. -/
theorem isComplete_variantExtensions {names : StableHashNames} {type : String}
    {isPublic hashing stableHashing : Bool} {e : Extension}
    (mem : e ∈ Equality.variantExtensions names type variants isPublic hashing stableHashing)
    {method : Method} {code : List Statement} (member : .function method code ∈ e.members)
    {s : Statement} (here : s ∈ code) : IsComplete variants s := by
  rw [Equality.variantExtensions, List.mem_cons, List.mem_append] at mem
  rcases mem with rfl | hash | stable
  · simp only [Equality.ofVariants, List.mem_cons, List.not_mem_nil, or_false,
      CodeMember.function.injEq] at member
    obtain ⟨-, rfl⟩ | ⟨-, rfl⟩ := member
    · obtain rfl := List.mem_singleton.mp here
      trivial
    · simp only [List.mem_append, List.mem_cons, List.not_mem_nil, or_false] at here
      obtain (rfl | switch) | rfl | rfl := here
      · trivial
      · exact isComplete_payloadSwitch switch
      · trivial
      · trivial
  · obtain ⟨-, rfl⟩ := List.mem_ite_nil_right.mp hash |>.imp_right List.mem_singleton.mp
    obtain ⟨-, rfl⟩ := CodeMember.function.inj (List.mem_singleton.mp member)
    exact isComplete_feedBody here
  · obtain ⟨-, rfl⟩ := List.mem_ite_nil_right.mp stable |>.imp_right List.mem_singleton.mp
    obtain ⟨-, rfl⟩ := CodeMember.function.inj (List.mem_singleton.mp member)
    simp only [Equality.stableBody, List.mem_append, List.mem_cons, List.not_mem_nil,
      or_false] at here
    obtain (rfl | mixing) | rfl | rfl := here
    · trivial
    · have fed : s ∈ feedBody variants fun name => .mix names.combine name names.property :=
        List.mem_cons.mpr mixing
      exact isComplete_feedBody fed
    · trivial
    · trivial

end

/-! ## Both kinds of types -/

/-- The block with equality that is generated for a type shows what a program is run by. -/
def Program.StandsIn (p : Program α) (n : Nominal) (o : Options) (s : Settings) : Prop :=
  ∃ text ∈ n.blocks o s, text = renderBlock s.indentUnit p.extensions ∧
    ∀ e ∈ p.extensions, e.StandsIn s.indentUnit text

/-- Options ask for equality and for some of the hashes. -/
structure Asks (o : Options) (hashing stableHashing : Bool) : Prop where
  equality : o.wantsEquality = true
  hashing : o.hashing = hashing
  stableHashing : o.stableHashing = stableHashing

/-- Generated equality and hashing obey the law: of structures and classes whose fields differ in
their names and hide no local of the code, and of enumerations whose variants are distinct.  Every
switch over payloads is complete.  What is run is what stands in the block that is generated, with
settings that leave the names for stable hashes as they are. -/
theorem lawful_extensions (type : String) (isPublic hashing stableHashing : Bool)
    (equal : α → α → Bool) :
    (∀ fields : List Field, (fields.map Field.name).Nodup →
      (∀ f ∈ fields, f.name ≠ hasherName ∧ f.name ≠ hashName) →
      let p := Program.ofFields ({} : Settings).stableHash type isPublic hashing stableHashing equal
        fields
      (∀ (n : Nominal) (o : Options) (s : Settings) (isClass : Bool),
        n.IsProductOf s type fields isPublic isClass → Asks o hashing stableHashing →
          s.stableHash = ({} : Settings).stableHash → p.StandsIn n o s) ∧
      Lawful p type hashing stableHashing (Value.HasFields fields)) ∧
    ∀ variants : List Variant, Distinct variants →
      let p := Program.ofVariants ({} : Settings).stableHash type isPublic hashing stableHashing
        equal variants
      (∀ (n : Nominal) (o : Options) (s : Settings), n.IsSumOf type variants isPublic →
        Asks o hashing stableHashing →
          s.stableHash = ({} : Settings).stableHash → p.StandsIn n o s) ∧
      Lawful p type hashing stableHashing (Value.HasVariant variants) ∧
      ∀ e ∈ Equality.variantExtensions ({} : Settings).stableHash type variants isPublic hashing
          stableHashing,
        ∀ method body, .function method body ∈ e.members → ∀ s ∈ body, IsComplete variants s := by
  refine ⟨fun fields nodup other => ⟨fun n o s isClass is asks names => ?_,
    lawful_ofFields nodup other⟩, fun variants distinct => ⟨fun n o s is asks names => ?_,
      lawful_ofVariants distinct, ?_⟩⟩
  · have mem := is.comparing_mem_blocks asks.equality
    rw [asks.hashing, asks.stableHashing, names] at mem
    exact ⟨_, mem, rfl, fun e mem => e.standsIn_renderBlock mem _⟩
  · have mem := is.comparing_mem_blocks (s := s) asks.equality
    rw [asks.hashing, asks.stableHashing, names] at mem
    exact ⟨_, mem, rfl, fun e mem => e.standsIn_renderBlock mem _⟩
  · intro e mem method body member s here
    exact isComplete_variantExtensions mem member here

/-- Variants with two slots, with empty parentheses and without any. -/
def replies : List Variant := [
  ⟨"failure", some [⟨"code", "Int", true⟩, ⟨"v1", "Int", false⟩]⟩,
  ⟨"success", some []⟩,
  ⟨"pending", none⟩]

/-- An enumeration with these variants. -/
def replyType : Nominal where
  head := ⟨⟨1, 1⟩, .enumKind, "Reply", [], [], []⟩
  members := [.cases ⟨⟨2, 5⟩, [⟨"failure", some [⟨some "code", "Int", none⟩, ⟨none, "Int", none⟩],
    none⟩, ⟨"success", some [], none⟩, ⟨"pending", none, none⟩], []⟩]

theorem lawful_replies :
    Lawful (.ofFields ({} : Settings).stableHash "Point" false true true Nat.beq
      [⟨"x", "Int", none⟩, ⟨"y", "Int", none⟩]) "Point" true true
      (Value.HasFields [⟨"x", "Int", none⟩, ⟨"y", "Int", none⟩]) ∧
    (Program.ofVariants ({} : Settings).stableHash "Reply" false true true Nat.beq
      replies).StandsIn replyType .everything {} ∧
    (Program.ofVariants ({} : Settings).stableHash "Reply" false true true Nat.beq replies).equals
      "Reply" (.sum "failure" [4, 5]) (.sum "failure" [4, 5]) = some true := by
  obtain ⟨products, -⟩ := lawful_extensions "Point" false true true Nat.beq
  obtain ⟨-, sums⟩ := lawful_extensions "Reply" false true true Nat.beq
  have distinct : Distinct replies := ⟨by decide, by decide⟩
  obtain ⟨stands, lawful, -⟩ := sums replies distinct
  have isSum : replyType.IsSumOf "Reply" replies false := ⟨rfl, rfl, rfl, rfl⟩
  refine ⟨(products _ (by decide) (by decide)).2,
    stands replyType .everything {} isSum ⟨rfl, rfl, rfl⟩ rfl, ?_⟩
  have isOf : (Value.sum "failure" [4, 5]).HasVariant replies :=
    ⟨⟨"failure", some [⟨"code", "Int", true⟩, ⟨"v1", "Int", false⟩]⟩, .head _, rfl, rfl⟩
  obtain ⟨same, run, agree⟩ := lawful.equals _ _ isOf isOf
  rw [run, agree.mpr ⟨rfl, .cons rfl (.cons rfl .nil)⟩]

end Conformance.Comparing
