import Conformance.Code.Codable
import Conformance.Code.Equality
import Conformance.Proofs.Code.Shown
import Conformance.Proofs.Grammar.Exactness
import Conformance.Proofs.Model.Neighbours
import Conformance.Settings
import Mathlib.Data.List.Nodup

/-!
# Names and their scopes

Some steps take a value by its bare name, and do not say whose it is.  Such a name stands for
the latest local of that name, the parameters of the function among these, and for a member of
the value only if there is no such local.

The code for structures and classes takes each field by its name, in four scopes:

* coding has the parameter `encoder`, and the local `container` in front of all that it takes;
* hashing for one run has the parameter `hasher`;
* the stable hash has the local `hashValue`;
* decoding and comparing take nothing by a bare name.

So a field is hidden just if it is called like one of the names in its scope
(`bareNames_denote_iff`), and there are such fields (`SourceFile.read_hidden`).  Enumerations
have prefixes for this reason.

The names are read off the data of the code, and each of them stands on a line of it
(`Extension.exists_line`).
-/

namespace Conformance

/-! ## Identifiers -/

/-- The identifier that a name spells: back quotes around it do not count. -/
def identifier (name : String) : List Char :=
  let quote := fun c => c == '\x60'
  ((name.toList.dropWhile quote).reverse.dropWhile quote).reverse

/-! ## Scopes -/

/-- A value that is taken by its bare name, with the locals of the place, the latest first. -/
structure Mention where
  /-- The name. -/
  name : String
  /-- The locals. -/
  scope : List String
deriving DecidableEq, Repr

namespace Mention

/-- No local hides what is meant. -/
def IsFree (m : Mention) : Prop := ∀ l ∈ m.scope, identifier l ≠ identifier m.name

instance (m : Mention) : Decidable m.IsFree :=
  inferInstanceAs (Decidable (∀ l ∈ m.scope, _))

/-- What the name stands for among some fields: nothing if a local hides it, else the field of
that name. -/
def field? (m : Mention) (fields : List Field) : Option Field :=
  if m.IsFree then fields.find? (·.name == m.name) else none

/-- The name stands for the field that has it. -/
def Denotes (m : Mention) (fields : List Field) : Prop :=
  ∃ f ∈ fields, f.name = m.name ∧ m.field? fields = some f

end Mention

namespace Step

/-- The value that a step takes by its bare name. -/
def taken : Step → List String
  | encode _ value _ | feed value | mix _ value _ => [value]
  | _ => []

/-- The locals that a step adds. -/
def locals : Step → List String
  | openWriting true | openReading true => [Store.outer.name]
  | openInnerWriting .. | openInnerReading .. => [Store.inner.name]
  | decode value => [value.name]
  | decodeInner values => values.map Decoded.name
  | requireRight pattern => pattern.bound
  | startHash => [hashName]
  | _ => []

end Step

/-- What some steps take, behind the locals of a place. -/
def mentionsOfSteps : (scope : List String) → List Step → List Mention
  | _, [] => []
  | scope, s :: rest => s.taken.map (⟨·, scope⟩) ++ mentionsOfSteps (s.locals ++ scope) rest

namespace Statement

/-- The locals that a statement adds. -/
def locals : Statement → List String
  | step s => s.locals
  | requireOneKey _ => ["key"]
  | switch .. | returnName _ => []

/-- What a statement takes, behind the locals of a place. -/
def mentions (scope : List String) : Statement → List Mention
  | step s => s.taken.map (⟨·, scope⟩)
  | switch _ arms _ => arms.flatMap fun a => mentionsOfSteps (a.pattern.bound ++ scope) a.body
  | returnName _ | requireOneKey _ => []

end Statement

/-- What a body takes, behind the locals of a place. -/
def mentionsOfBody : (scope : List String) → List Statement → List Mention
  | _, [] => []
  | scope, s :: rest => s.mentions scope ++ mentionsOfBody (s.locals ++ scope) rest

/-- What a member takes.  The parameters of a function are locals of its body. -/
def CodeMember.mentions : CodeMember → List Mention
  | .keys .. => []
  | .function method body => mentionsOfBody method.parameters body

/-- What an extension takes by bare names. -/
def Extension.mentions (e : Extension) : List Mention := e.members.flatMap CodeMember.mentions

/-! ## Lines with mentions -/

/-- A name stands on a line. -/
def Line.Has (name : String) : Line → Prop
  | text _ s => ∃ before behind, s = before ++ name ++ behind
  | blank => False

theorem Line.Has.nested {name : String} {l : Line} (h : l.Has name) : l.nested.Has name := by
  cases l with
  | text => exact h
  | blank => exact h

/-- What a step takes stands on one of its lines. -/
theorem Step.exists_line {s : Step} {value : String} (mem : value ∈ s.taken) (depth : Nat) :
    ∃ l ∈ s.lines depth, l.Has value := by
  cases s with
  | encode store v key =>
    obtain rfl := List.mem_singleton.mp mem
    exact ⟨_, .head _, "try " ++ store.name ++ ".encode(", ", forKey: ." ++ key ++ ")",
      by simp only [String.append_assoc]⟩
  | feed v =>
    obtain rfl := List.mem_singleton.mp mem
    exact ⟨_, .head _, "hasher.combine(", ")", rfl⟩
  | mix combine v property =>
    obtain rfl := List.mem_singleton.mp mem
    exact ⟨_, .head _, combine ++ "(&" ++ hashName ++ ", ", "." ++ property ++ ")",
      by simp only [String.append_assoc]⟩
  | _ => cases mem

theorem taken_of_mem_mentionsOfSteps {scope : List String} {steps : List Step} {m : Mention}
    (mem : m ∈ mentionsOfSteps scope steps) : ∃ s ∈ steps, m.name ∈ s.taken := by
  induction steps generalizing scope with
  | nil => cases mem
  | cons s steps ih =>
    rcases List.mem_append.mp mem with here | later
    · obtain ⟨value, taken, rfl⟩ := List.mem_map.mp here
      exact ⟨s, .head _, taken⟩
    · obtain ⟨s', among, taken⟩ := ih later
      exact ⟨s', .tail _ among, taken⟩

theorem Statement.exists_line {s : Statement} {scope : List String} {m : Mention}
    (mem : m ∈ s.mentions scope) (depth : Nat) : ∃ l ∈ s.lines depth, l.Has m.name := by
  cases s with
  | step s =>
    obtain ⟨value, taken, rfl⟩ := List.mem_map.mp mem
    exact s.exists_line taken depth
  | switch subject arms otherwise =>
    obtain ⟨a, arm, inside⟩ := List.mem_flatMap.mp mem
    obtain ⟨s, among, taken⟩ := taken_of_mem_mentionsOfSteps inside
    obtain ⟨l, line, has⟩ := s.exists_line taken (depth + 1)
    have inArm : l ∈ a.lines depth := .tail _ (List.mem_flatMap.mpr ⟨s, among, line⟩)
    have inArms : l ∈ arms.flatMap (Arm.lines depth) := List.mem_flatMap.mpr ⟨a, arm, inArm⟩
    refine ⟨l, ?_, has⟩
    simp only [lines, List.mem_append, List.mem_cons]
    exact .inl (.inl (.inr inArms))
  | returnName => cases mem
  | requireOneKey => cases mem

theorem exists_of_mem_mentionsOfBody {scope : List String} {body : List Statement} {m : Mention}
    (mem : m ∈ mentionsOfBody scope body) : ∃ s ∈ body, ∃ scope', m ∈ s.mentions scope' := by
  induction body generalizing scope with
  | nil => cases mem
  | cons s body ih =>
    rcases List.mem_append.mp mem with here | later
    · exact ⟨s, .head _, scope, here⟩
    · obtain ⟨s', among, scope', inside⟩ := ih later
      exact ⟨s', .tail _ among, scope', inside⟩

/-- What an extension takes by a bare name stands on one of its lines. -/
theorem Extension.exists_line {e : Extension} {m : Mention} (mem : m ∈ e.mentions) :
    ∃ l ∈ e.lines, l.Has m.name := by
  obtain ⟨member, among, inside⟩ := List.mem_flatMap.mp mem
  cases member with
  | keys => cases inside
  | function method body =>
    obtain ⟨s, statement, scope, taken⟩ := exists_of_mem_mentionsOfBody inside
    obtain ⟨l, line, has⟩ := s.exists_line taken 1
    have inBody : l ∈ body.flatMap (Statement.lines 1) :=
      List.mem_flatMap.mpr ⟨s, statement, line⟩
    have inMember : l ∈ (CodeMember.function method body).lines (accessWord e.isPublic) := by
      simp only [CodeMember.lines, List.mem_append, List.mem_cons]
      exact .inl (.inr inBody)
    exact ⟨l.nested, (infix_lines among).subset (List.mem_map_of_mem inMember), has.nested⟩

/-! ## Fields in their scopes -/

/-- Where no step adds locals, all that is taken is in one scope. -/
theorem mentionsOfBody_each {α : Type} (step : α → Step) (name : α → String)
    (taken : ∀ a, (step a).taken = [name a]) (locals : ∀ a, (step a).locals = [])
    (scope : List String) (as : List α) (rest : List Statement) :
    mentionsOfBody scope (as.map (fun a => .step (step a)) ++ rest) =
      as.map (fun a => ⟨name a, scope⟩) ++ mentionsOfBody scope rest := by
  induction as with
  | nil => rfl
  | cons a as ih =>
    rw [List.map_cons, List.cons_append, mentionsOfBody, Statement.mentions, taken,
      Statement.locals, locals, List.nil_append, ih]
    rfl

/-- The fields, all taken in one scope. -/
def mentionsOf (fields : List Field) (scope : List String) : List Mention :=
  fields.map fun f => ⟨f.name, scope⟩

section
variable (names : StableHashNames) (type : String) (fields : List Field)
  (isPublic isClass hashing stableHashing : Bool)

/-- Coding takes each field behind the parameter and the container. -/
theorem Codable.mentions_ofFields : (ofFields type fields isPublic isClass).mentions =
    mentionsOf fields ["container", "encoder"] := by
  cases fields with
  | nil => rfl
  | cons f fs =>
    have each := mentionsOfBody_each (fun f : Field => .encode .outer f.name f.name) Field.name
      (fun _ => rfl) (fun _ => rfl) ["container", "encoder"] (f :: fs) []
    rw [List.append_nil] at each
    have encoding : (CodeMember.function .encode (encodeFields (f :: fs))).mentions =
        mentionsOf (f :: fs) ["container", "encoder"] := by
      refine Eq.trans each ?_
      simp [mentionsOf, mentionsOfBody]
    have decoding : (CodeMember.function (.decode isClass) (decodeFields (f :: fs))).mentions =
        [] := rfl
    have keys : (CodeMember.keys outerKeys true ((f :: fs).map Field.name)).mentions = [] := rfl
    simp only [Extension.mentions, ofFields, List.flatMap_cons, List.flatMap_nil, keys, encoding,
      decoding, List.nil_append, List.append_nil]

theorem Equality.mentions_hashOfFields : (hashOfFields type fields isPublic).mentions =
    mentionsOf fields ["hasher"] := by
  have each := mentionsOfBody_each (fun f : Field => .feed f.name) Field.name
    (fun _ => rfl) (fun _ => rfl) ["hasher"] fields []
  rw [List.append_nil] at each
  have hash : (CodeMember.function .hash (fields.map fun f => .step (.feed f.name))).mentions =
      mentionsOf fields ["hasher"] := by
    refine Eq.trans each ?_
    simp [mentionsOf, mentionsOfBody]
  simp [Extension.mentions, hashOfFields, hash]

theorem Equality.mentions_stableHashOfFields :
    (stableHashOfFields names type fields isPublic).mentions =
      mentionsOf fields ["hashValue"] := by
  have each := mentionsOfBody_each (fun f : Field => .mix names.combine f.name names.property)
    Field.name (fun _ => rfl) (fun _ => rfl) ["hashValue"] fields
    [.step .blank, .step .returnHash]
  have hash : (CodeMember.function (.stableHash names.property) (stableBody
      (fields.map fun f => .step (.mix names.combine f.name names.property)))).mentions =
      mentionsOf fields ["hashValue"] := by
    refine Eq.trans each ?_
    simp [mentionsOf, mentionsOfBody, Statement.mentions, Step.taken]
  simp [Extension.mentions, stableHashOfFields, hash]

/-- Comparing takes nothing, and each hash takes each field behind its own local. -/
theorem Equality.mentions_fieldExtensions :
    (fieldExtensions names type fields isPublic hashing stableHashing).flatMap
        Extension.mentions =
      (if hashing then mentionsOf fields ["hasher"] else []) ++
        if stableHashing then mentionsOf fields ["hashValue"] else [] := by
  have comparing : (ofFields type fields isPublic).mentions = [] := rfl
  cases hashing <;> cases stableHashing <;>
    simp [fieldExtensions, comparing, mentions_hashOfFields, mentions_stableHashOfFields]

end

/-! ## What bare names stand for -/

section
variable {fields : List Field}

/-- Of fields with distinct names, each is found by its name. -/
theorem find?_name (nodup : (fields.map Field.name).Nodup) {f : Field} (mem : f ∈ fields) :
    fields.find? (·.name == f.name) = some f := by
  cases found : fields.find? (·.name == f.name) with
  | none =>
    have no := List.find?_eq_none.mp found f mem
    simp at no
  | some g =>
    have same : g.name = f.name := by simpa using List.find?_some found
    rw [List.inj_on_of_nodup_map nodup (List.mem_of_find?_eq_some found) mem same]

/-- The name of a field stands for it just if no local hides it. -/
theorem denotes_iff_isFree (nodup : (fields.map Field.name).Nodup) {f : Field}
    (mem : f ∈ fields) (scope : List String) :
    Mention.Denotes ⟨f.name, scope⟩ fields ↔ Mention.IsFree ⟨f.name, scope⟩ := by
  constructor
  · rintro ⟨g, -, -, found⟩
    unfold Mention.field? at found
    split at found
    next free => exact free
    next => cases found
  · intro free
    exact ⟨f, mem, rfl, (if_pos free).trans (find?_name nodup mem)⟩

/-- All fields that are taken in one scope are meant just if none is called like a local. -/
theorem denotes_mentionsOf (nodup : (fields.map Field.name).Nodup)
    (scope : List String) : (∀ m ∈ mentionsOf fields scope, m.Denotes fields) ↔
      ∀ f ∈ fields, ∀ l ∈ scope, identifier f.name ≠ identifier l := by
  simp only [mentionsOf, List.forall_mem_map]
  refine forall₂_congr fun f mem => ?_
  rw [denotes_iff_isFree nodup mem]
  simp only [Mention.IsFree, ne_comm]

/-- The code for structures and classes takes just its fields by bare names.  Each of these stands
for its field just if no field is called like a local in its scope.  In coding these are the
parameter and the container, and in each hash that is asked for, what the hash is fed to.  All
these names stand on lines of the code. -/
theorem bareNames_denote_iff (names : StableHashNames) (type : String)
    (isPublic isClass hashing stableHashing : Bool)
    (nodup : (fields.map Field.name).Nodup) :
    ((∀ m ∈ (Codable.ofFields type fields isPublic isClass).mentions, m.Denotes fields) ↔
      ∀ f ∈ fields, identifier f.name ≠ identifier "encoder" ∧
        identifier f.name ≠ identifier "container") ∧
    ((∀ e ∈ Equality.fieldExtensions names type fields isPublic hashing stableHashing,
        ∀ m ∈ e.mentions, m.Denotes fields) ↔
      ∀ f ∈ fields, (hashing = true → identifier f.name ≠ identifier "hasher") ∧
        (stableHashing = true → identifier f.name ≠ identifier "hashValue")) ∧
    ∀ e ∈ Codable.ofFields type fields isPublic isClass ::
        Equality.fieldExtensions names type fields isPublic hashing stableHashing,
      ∀ m ∈ e.mentions, ∃ l ∈ e.lines, l.Has m.name := by
  refine ⟨?_, ?_, fun e _ m mem => e.exists_line mem⟩
  · rw [Codable.mentions_ofFields, denotes_mentionsOf nodup]
    simp [and_comm]
  · rw [← List.forall_mem_flatMap, Equality.mentions_fieldExtensions, List.forall_mem_append]
    cases hashing <;> cases stableHashing <;> simp [denotes_mentionsOf nodup, forall_and]

theorem bareNames_denote_point :
    (∀ m ∈ (Codable.ofFields "Point" [⟨"x", "Int", none⟩, ⟨"y", "Int", none⟩] true false).mentions,
      m.Denotes [⟨"x", "Int", none⟩, ⟨"y", "Int", none⟩]) ∧
    ∀ e ∈ Equality.fieldExtensions ({} : Settings).stableHash "Point"
        [⟨"x", "Int", none⟩, ⟨"y", "Int", none⟩] true true true,
      ∀ m ∈ e.mentions, m.Denotes [⟨"x", "Int", none⟩, ⟨"y", "Int", none⟩] := by
  obtain ⟨coding, hashing, -⟩ := @bareNames_denote_iff [⟨"x", "Int", none⟩, ⟨"y", "Int", none⟩]
    ({} : Settings).stableHash "Point" true false true true (by decide)
  exact ⟨coding.mpr (by decide), hashing.mpr (by decide)⟩

end

/-! ## Hidden fields -/

/-- A structure with a field called like each of these locals. -/
def hiddenText : String :=
  "struct S { let encoder: Int ; let container: Int ; let hasher: Int ; let hashValue: Int }"

/-- In some scope of an extension a local hides a field. -/
def Extension.Hides (e : Extension) (fields : List Field) : Prop :=
  ∃ m ∈ e.mentions, m.name ∈ fields.map Field.name ∧ ¬m.IsFree

theorem hides_of_mentionsOf {e : Extension} {fields : List Field} {scope : List String}
    (is : e.mentions = mentionsOf fields scope) {f : Field} (mem : f ∈ fields)
    (hidden : ∃ l ∈ scope, identifier l = identifier f.name) : e.Hides fields := by
  obtain ⟨l, local', same⟩ := hidden
  exact ⟨⟨f.name, scope⟩, is ▸ List.mem_map_of_mem mem, List.mem_map_of_mem mem,
    fun free => free l local' same⟩

/-- A source with distinct fields that are hidden in coding and in both hashes. -/
theorem SourceFile.read_hidden :
    ∃ f n, read hiddenText none = .ok f ∧ f.nominals = [n] ∧
      ((n.fields "").map Field.name).Nodup ∧
      (Codable.ofFields n.head.name (n.fields "") false false).Hides (n.fields "") ∧
      (Equality.hashOfFields n.head.name (n.fields "") false).Hides (n.fields "") ∧
      (Equality.stableHashOfFields ({} : Settings).stableHash n.head.name (n.fields "")
        false).Hides (n.fields "") := by
  have seen : (read hiddenText none).toOption.map
      (fun f => (f.nominals.length, f.nominals.flatMap fun n => n.fields "")) =
      some (1, [⟨"encoder", "Int", none⟩, ⟨"container", "Int", none⟩, ⟨"hasher", "Int", none⟩,
        ⟨"hashValue", "Int", none⟩]) := by decide +kernel
  obtain ⟨f, accepted, found⟩ := exists_ok_of _ seen
  obtain ⟨single, fields⟩ := Prod.mk.inj found
  obtain ⟨n, nominals⟩ := List.length_eq_one_iff.mp single
  rw [nominals, List.flatMap_singleton] at fields
  refine ⟨f, n, accepted, nominals, ?_, ?_, ?_, ?_⟩ <;> rw [fields]
  · decide
  · exact hides_of_mentionsOf (Codable.mentions_ofFields ..) (.tail _ (.head _))
      ⟨"container", by decide⟩
  · exact hides_of_mentionsOf (Equality.mentions_hashOfFields ..) (.tail _ (.tail _ (.head _)))
      ⟨"hasher", by decide⟩
  · exact hides_of_mentionsOf (Equality.mentions_stableHashOfFields ..)
      (.tail _ (.tail _ (.tail _ (.head _)))) ⟨"hashValue", by decide⟩

end Conformance
