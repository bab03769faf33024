import Conformance.Code.Memberwise
import Conformance.Proofs.Coding.RoundTrip

/-!
# Coding a structure or class and back

A structure or class is coded by its fields, and decoded through its memberwise initializer.
Five lists have to agree for this: the declared keys, the writes, the reads, the parameters of
the initializer and its assignments.

An *object* is known by its properties.  The bare name of a property stands for it unless a
parameter of the function or a local has that name too.  A run keeps a record of the keys that
it wrote or read, in order, with the types of what was under them (`Access`).

The initializer takes its arguments in the order of its parameters, each behind its label and
at its type.  Nothing else is called in decoding, so arguments that fall back on a default are
left out here: a call without them is stuck.
-/

namespace Conformance.Coding

variable {α : Type}

/-! ## Objects -/

/-- A value of a structure or class, by its properties. -/
abbrev Object (α : Type) := String → Option (Typed α)

/-- An object has a value at the type of each field, and no other property. -/
structure Object.HasFields (o : Object α) (fields : List Field) : Prop where
  /-- Each field has a value at its type. -/
  value : ∀ f ∈ fields, ∃ v, o f.name = some v ∧ v.type = f.type
  /-- There is no other property. -/
  only : ∀ name ∉ fields.map Field.name, o name = none

/-! ## The initializer -/

/-- The locals of an initializer: the arguments, each of which has the label and the type of the
parameter at its place. -/
def bindArguments :
    List Parameter → List (String × Typed α) → Except Fault (List (String × Typed α))
  | [], [] => .ok []
  | p :: ps, (label, v) :: rest =>
    if label = p.name ∧ v.type = p.type then do pure ((p.name, v) :: (← bindArguments ps rest))
    else .error .stuck
  | _, _ => .error .stuck

/-- Assignments in order, to properties that are fields, of locals at the types of these. -/
def runAssignments (fields : List Field) (locals : List (String × Typed α)) :
    Object α → List Assignment → Except Fault (Object α)
  | o, [] => .ok o
  | o, a :: rest =>
    match locals.lookup a.value with
    | some v =>
      if ∃ f ∈ fields, f.name = a.property ∧ f.type = v.type then
        runAssignments fields locals (put o a.property v) rest
      else .error .stuck
    | none => .error .stuck

/-- What a memberwise initializer makes of its arguments.  No field may be left without a value. -/
def call (m : MemberwiseInit) (arguments : List (String × Typed α)) :
    Except Fault (Object α) := do
  let locals ← bindArguments m.parameters arguments
  let made ← runAssignments m.fields locals (fun _ => none) m.assignments
  if ∀ f ∈ m.fields, (made f.name).isSome = true then pure made else .error .stuck

/-! ## Runs -/

/-- A key that was written or read, with the type of the value under it. -/
structure Access where
  /-- The key. -/
  key : String
  /-- The type. -/
  type : String
deriving DecidableEq, Repr

/-- The state of a run in a structure or class. -/
structure Frame (α : Type) where
  /-- The locals and the store. -/
  state : State α
  /-- The parameters of the function. -/
  parameters : List String
  /-- The object that the function is about. -/
  self : Object α
  /-- What was written or read so far. -/
  accesses : List Access

namespace Frame

/-- The value that a bare name stands for. -/
def valueOf (s : Frame α) (name : String) : Except Fault (Typed α) :=
  match s.state.locals.lookup name with
  | some (.value v) => .ok v
  | some _ => .error .stuck
  | none =>
    if name ∈ s.parameters then .error .stuck else (s.self name).elim (.error .stuck) .ok

/-- A value that is read from the outer store, at its type. -/
def read (s : Frame α) (d : Decoded) : Except Fault (Typed α) := do
  match ← s.state.entry d.key with
  | .value v => v.at d.type
  | _ => .error .thrown

end Frame

/-- What a step does in a type with an initializer. -/
def runFieldStep (e : Extension) (m : MemberwiseInit) (s : Frame α) :
    Step → Except Fault (Frame α)
  | .encode .outer value key => do
    let v ← s.valueOf value
    let state ← s.state.write key (.value v)
    pure { s with state, accesses := s.accesses ++ [⟨key, v.type⟩] }
  | .delegate ds => do
    let values ← ds.mapM s.read
    let self ← call m ((ds.map Decoded.name).zip values)
    pure { s with self, accesses := s.accesses ++ ds.map fun d => ⟨d.key, d.type⟩ }
  | step => do pure { s with state := ← runStep e s.state step }

/-- Several statements in order, none of which is a branch. -/
def runFieldBody (e : Extension) (m : MemberwiseInit) :
    Frame α → List Statement → Except Fault (Frame α)
  | s, [] => .ok s
  | s, .step step :: rest => do runFieldBody e m (← runFieldStep e m s step) rest
  | _, _ :: _ => .error .stuck

/-- What the encoding function of an object leaves in an empty store, and what it wrote. -/
def encodeObject (e : Extension) (m : MemberwiseInit) (o : Object α) :
    Except Fault (Keyed α × List Access) :=
  match e.body? .encode with
  | some body => do
    let after ← runFieldBody e m ⟨⟨[], fun _ => none, none⟩, Method.encode.parameters, o, []⟩ body
    pure (after.state.store, after.accesses)
  | none => .error .stuck

/-- The object that decoding makes of a store, and what it read. -/
def decodeObject (e : Extension) (m : MemberwiseInit) (convenience : Bool) (store : Keyed α) :
    Except Fault (Object α × List Access) :=
  let method := Method.decode convenience
  match e.body? method with
  | some body => do
    let after ← runFieldBody e m ⟨⟨[], store, none⟩, method.parameters, fun _ => none, []⟩ body
    pure (after.self, after.accesses)
  | none => .error .stuck

/-! ## Fields in reach -/

/-- Fields with distinct plain names that nothing hides in coding. -/
structure InReach (fields : List Field) : Prop where
  /-- Names are plain. -/
  plain : ∀ f ∈ fields, IsPlainName f.name
  /-- No two fields have the same name. -/
  names : (fields.map Field.name).Nodup
  /-- No field is called like the parameter of coding. -/
  parameter : ∀ f ∈ fields, f.name ≠ "encoder"
  /-- No field is called like the local of coding. -/
  container : ∀ f ∈ fields, f.name ≠ "container"

/-- The access to a field. -/
def accessOf (f : Field) : Access := ⟨f.name, f.type⟩

/-- Some properties of an object, and for the others those that were there before. -/
def overlaid {β : Type} (names : List String) (upper lower : String → Option β) :
    String → Option β :=
  fun k => if k ∈ names then upper k else lower k

theorem overlaid_nil {β : Type} (upper lower : String → Option β) :
    overlaid [] upper lower = lower := by
  funext k
  simp [overlaid]

/-- To put the first of the properties and then the others is to put them all. -/
theorem overlaid_put {β : Type} {upper lower : String → Option β} {name : String}
    {names : List String} {b : β} (here : upper name = some b) :
    overlaid names upper (put lower name b) = overlaid (name :: names) upper lower := by
  funext k
  by_cases later : k ∈ names
  · simp [overlaid, later]
  · by_cases same : k = name
    · simp [overlaid, same, here]
    · simp [overlaid, later, same, put]

/-- An object is no more than its fields. -/
theorem Object.HasFields.overlaid_eq {o : Object α} {fields : List Field}
    (has : o.HasFields fields) : overlaid (fields.map Field.name) o (fun _ => none) = o := by
  funext k
  by_cases mem : k ∈ fields.map Field.name
  · simp [overlaid, mem]
  · simp only [overlaid, mem, if_false]
    exact (has.only k mem).symm

/-- An object's store has a value under the name of each of its fields. -/
def stored (o : Object α) : Keyed α := fun k => (o k).map Entry.value

/-! ## Encoding -/

section
variable {e : Extension} {m : MemberwiseInit} {s t : Frame α}

theorem runFieldBody_cons {step : Step} (h : runFieldStep e m s step = .ok t)
    (rest : List Statement) :
    runFieldBody e m s (.step step :: rest) = runFieldBody e m t rest := by
  rw [runFieldBody, h]
  rfl

/-- A name that is hidden by nothing stands for the property. -/
theorem valueOf_property {name : String} {v : Typed α} (here : s.self name = some v)
    (local' : s.state.locals.lookup name = none) (parameter : name ∉ s.parameters) :
    s.valueOf name = .ok v := by
  simp only [Frame.valueOf, local', parameter, if_false, here]
  rfl

/-- Each field of the object is written under its name, in order. -/
theorem runFieldBody_encode {keys : List String} {fields : List Field}
    (container : s.state.locals = [(Store.outer.name, .writer keys)])
    (parameters : s.parameters = ["encoder"]) (known : ∀ f ∈ fields, f.name ∈ keys)
    (free : ∀ f ∈ fields, f.name ≠ "encoder" ∧ f.name ≠ "container")
    (value : ∀ f ∈ fields, ∃ v, s.self f.name = some v ∧ v.type = f.type) :
    runFieldBody e m s (fields.map fun f => .step (.encode .outer f.name f.name)) =
      .ok { s with
        state := { s.state with
          store := overlaid (fields.map Field.name) (stored s.self) s.state.store }
        accesses := s.accesses ++ fields.map accessOf } := by
  induction fields generalizing s with
  | nil => simp [runFieldBody, overlaid_nil]
  | cons f fields ih =>
    obtain ⟨v, here, type⟩ := value f (.head _)
    obtain ⟨noParameter, noLocal⟩ := free f (.head _)
    have bare : s.valueOf f.name = .ok v := by
      refine valueOf_property here ?_ (by simpa [parameters] using noParameter)
      have other : (f.name == Store.outer.name) = false := beq_false_of_ne noLocal
      rw [container, List.lookup_cons, other]
      rfl
    have opened : s.state.locals.lookup Store.outer.name = some (.writer keys) := by
      rw [container]
      exact List.lookup_cons_self ..
    have written := write_known (.value v) opened (known f (.head _))
    have step : runFieldStep e m s (.encode .outer f.name f.name) = .ok { s with
        state := { s.state with store := put s.state.store f.name (.value v) }
        accesses := s.accesses ++ [accessOf f] } := by
      simp only [runFieldStep, bare, written, bind, Except.bind, accessOf, ← type]
      rfl
    rw [List.map_cons, runFieldBody_cons step, ih]
    · have entry : stored s.self f.name = some (.value v) := by simp [stored, here]
      simp only [overlaid_put entry, List.append_assoc, List.singleton_append, List.map_cons]
    · exact container
    · exact parameters
    · exact fun g mem => known g (.tail _ mem)
    · exact fun g mem => free g (.tail _ mem)
    · exact fun g mem => value g (.tail _ mem)

end

/-! ## Decoding -/

section
variable {e : Extension} {m : MemberwiseInit} {s : Frame α} {o : Object α} {fields : List Field}
  {values : List (Typed α)}

/-- The values of the fields of an object. -/
def ValuesOf (o : Object α) (fields : List Field) (values : List (Typed α)) : Prop :=
  List.Forall₂ (fun f v => o f.name = some v ∧ v.type = f.type) fields values

theorem exists_valuesOf (value : ∀ f ∈ fields, ∃ v, o f.name = some v ∧ v.type = f.type) :
    ∃ values, ValuesOf o fields values := by
  induction fields with
  | nil => exact ⟨[], .nil⟩
  | cons f fields ih =>
    obtain ⟨v, first⟩ := value f (.head _)
    obtain ⟨values, others⟩ := ih fun g mem => value g (.tail _ mem)
    exact ⟨v :: values, .cons first others⟩

/-- From the store of an object, each field is read at its type. -/
theorem mapM_read {keys : List String}
    (container : s.state.locals.lookup Store.outer.name = some (.reader keys))
    (store : s.state.store = stored o) (known : ∀ f ∈ fields, f.name ∈ keys)
    (are : ValuesOf o fields values) :
    (fields.map Field.decoded).mapM s.read = .ok values := by
  induction are with
  | nil => rfl
  | @cons f v fields values first _ ih =>
    obtain ⟨here, type⟩ := first
    have entry : s.state.entry f.name = .ok (.value v) :=
      entry_known container (known f (.head _)) (by simp [store, stored, here])
    have value : s.read f.decoded = .ok v := by
      simp only [Frame.read, Field.decoded, entry, bind, Except.bind, Typed.at, type, if_true]
    rw [List.map_cons, List.mapM_cons, value, ih fun g mem => known g (.tail _ mem)]
    rfl

/-- Values behind the names of fields are taken by the parameters of these. -/
theorem bindArguments_fields (are : ValuesOf o fields values) :
    bindArguments (fields.map Field.parameter) ((fields.map Field.name).zip values) =
      .ok ((fields.map Field.name).zip values) := by
  induction are with
  | nil => rfl
  | @cons f v fields values first _ ih =>
    have fits : f.name = f.parameter.name ∧ v.type = f.parameter.type := ⟨rfl, first.2⟩
    rw [List.map_cons, List.map_cons, List.zip_cons_cons, bindArguments, if_pos fits, ih]
    rfl

theorem lookup_valuesOf (are : ValuesOf o fields values) {f : Field} (mem : f ∈ fields) :
    ((fields.map Field.name).zip values).lookup f.name = o f.name := by
  induction are with
  | nil => cases mem
  | @cons g v fields values first _ ih =>
    rw [List.map_cons, List.zip_cons_cons, List.lookup_cons]
    by_cases same : f.name = g.name
    · rw [same, beq_self_eq_true, first.1]
    · rw [beq_false_of_ne same]
      exact ih ((List.mem_cons.mp mem).resolve_left fun is => same (is ▸ rfl))

/-- Assigning each field from the local of its name gives it the value of that local. -/
theorem runAssignments_fields {locals : List (String × Typed α)} {declared : List Field}
    (sub : fields ⊆ declared) (value : ∀ f ∈ fields, ∃ v, o f.name = some v ∧ v.type = f.type)
    (locals_eq : ∀ f ∈ fields, locals.lookup f.name = o f.name) (before : Object α) :
    runAssignments declared locals before (fields.map Field.assignment) =
      .ok (overlaid (fields.map Field.name) o before) := by
  induction fields generalizing before with
  | nil => rw [List.map_nil, List.map_nil, overlaid_nil]; rfl
  | cons f fields ih =>
    obtain ⟨v, here, type⟩ := value f (.head _)
    have found : locals.lookup f.assignment.value = some v :=
      (locals_eq f (.head _)).trans here
    have field : ∃ g ∈ declared, g.name = f.assignment.property ∧ g.type = v.type :=
      ⟨f, sub (.head _), rfl, type.symm⟩
    rw [List.map_cons, runAssignments]
    simp only [found, if_pos field]
    rw [ih (fun g mem => sub (.tail _ mem)) (fun g mem => value g (.tail _ mem))
      fun g mem => locals_eq g (.tail _ mem)]
    exact congrArg Except.ok (overlaid_put here)

/-- The initializer makes an object of the values of its fields. -/
theorem call_fields (has : o.HasFields fields) (are : ValuesOf o fields values)
    (isPublic : Bool) :
    call ⟨fields, isPublic⟩ ((fields.map Field.name).zip values) = .ok o := by
  have binds : bindArguments (MemberwiseInit.mk fields isPublic).parameters
      ((fields.map Field.name).zip values) = .ok ((fields.map Field.name).zip values) :=
    bindArguments_fields are
  have assigns : runAssignments fields ((fields.map Field.name).zip values) (fun _ => none)
      (MemberwiseInit.mk fields isPublic).assignments = .ok o :=
    (runAssignments_fields (List.Subset.refl _) has.value (fun f mem => lookup_valuesOf are mem)
      _).trans (congrArg Except.ok has.overlaid_eq)
  have complete : ∀ f ∈ fields, (o f.name).isSome = true := by
    intro f mem
    obtain ⟨v, here, -⟩ := has.value f mem
    rw [here]
    rfl
  simp only [call, binds, assigns, bind, Except.bind, if_pos complete]
  rfl

end

/-! ## Both functions -/

section
variable (type : String) {fields : List Field} (isPublic isClass : Bool)

theorem keyCases?_fields :
    (Codable.ofFields type fields isPublic isClass).keyCases? outerKeys =
      some (fields.map Field.name) := by
  simp [Extension.keyCases?, Codable.ofFields, CodeMember.cases?]

theorem body?_encodeFields :
    (Codable.ofFields type fields isPublic isClass).body? .encode =
      some (Codable.encodeFields fields) := by
  simp [Extension.body?, Codable.ofFields, List.findSome?_cons, CodeMember.body?]

theorem body?_decodeFields :
    (Codable.ofFields type fields isPublic isClass).body? (.decode isClass) =
      some (Codable.decodeFields fields) := by
  simp [Extension.body?, Codable.ofFields, List.findSome?_cons, CodeMember.body?]

variable {type isPublic isClass} {o : Object α}

/-- Encoding leaves the value of each field under its name. -/
theorem encodeObject_ofFields (m : MemberwiseInit) (reach : InReach fields)
    (has : o.HasFields fields) :
    encodeObject (Codable.ofFields type fields isPublic isClass) m o =
      .ok (stored o, fields.map accessOf) := by
  let e := Codable.ofFields type fields isPublic isClass
  let start : Frame α := ⟨⟨[], fun _ => none, none⟩, Method.encode.parameters, o, []⟩
  let opened (keep : Bool) : Frame α :=
    if keep then
      { start with state := start.state.bind Store.outer.name (.writer (fields.map Field.name)) }
    else start
  have opens (keep : Bool) : runFieldStep e m start (.openWriting keep) = .ok (opened keep) := by
    simp only [runFieldStep, runStep, e, keyCases?_fields]
    cases keep <;> rfl
  simp only [encodeObject, body?_encodeFields, Codable.encodeFields]
  rw [runFieldBody_cons (opens _)]
  cases fields with
  | nil =>
    have none : o = fun _ => none := funext fun k => has.only k (by simp)
    rw [none]
    rfl
  | cons f fs =>
    have free : ∀ g ∈ f :: fs, g.name ≠ "encoder" ∧ g.name ≠ "container" :=
      fun g mem => ⟨reach.parameter g mem, reach.container g mem⟩
    have writes := runFieldBody_encode (e := e) (m := m) (s := opened true) rfl rfl
      (fun g mem => List.mem_map_of_mem mem) free has.value
    have all : overlaid ((f :: fs).map Field.name) (stored o) (fun _ => none) = stored o := by
      funext k
      by_cases mem : k ∈ (f :: fs).map Field.name
      · simp only [overlaid, mem, if_true]
      · simp only [overlaid, mem, if_false, stored, has.only k mem, Option.map_none]
    refine (congrArg (· >>= fun after => pure (after.state.store, after.accesses)) writes).trans ?_
    exact congrArg (fun store => Except.ok (store, _)) all

/-- Decoding the store of an object makes the object. -/
theorem decodeObject_ofFields (has : o.HasFields fields) :
    decodeObject (Codable.ofFields type fields isPublic isClass) ⟨fields, isPublic⟩ isClass
      (stored o) = .ok (o, fields.map accessOf) := by
  let e := Codable.ofFields type fields isPublic isClass
  let m : MemberwiseInit := ⟨fields, isPublic⟩
  let start : Frame α :=
    ⟨⟨[], stored o, none⟩, (Method.decode isClass).parameters, fun _ => none, []⟩
  let opened (keep : Bool) : Frame α :=
    if keep then
      { start with state := start.state.bind Store.outer.name (.reader (fields.map Field.name)) }
    else start
  have opens (keep : Bool) : runFieldStep e m start (.openReading keep) = .ok (opened keep) := by
    simp only [runFieldStep, runStep, e, keyCases?_fields]
    cases keep <;> rfl
  obtain ⟨values, are⟩ := exists_valuesOf has.value
  have reads : (fields.map Field.decoded).mapM (opened !fields.isEmpty).read = .ok values := by
    cases fields with
    | nil =>
      cases are
      rfl
    | cons f fs =>
      exact mapM_read (List.lookup_cons_self ..) rfl (fun g mem => List.mem_map_of_mem mem) are
  have labels : (fields.map Field.decoded).map Decoded.name = fields.map Field.name := by
    rw [List.map_map]
    rfl
  have delegates : runFieldStep e m (opened !fields.isEmpty)
      (.delegate (fields.map Field.decoded)) = .ok { opened !fields.isEmpty with
        self := o, accesses := fields.map accessOf } := by
    have none : (opened !fields.isEmpty).accesses = [] := by
      cases fields <;> rfl
    simp only [runFieldStep, reads, labels, call_fields has are isPublic, m, none, bind,
      Except.bind, List.nil_append, List.map_map]
    rfl
  simp only [decodeObject, body?_decodeFields, Codable.decodeFields]
  rw [runFieldBody_cons (opens _), runFieldBody_cons delegates]
  rfl

end

/-! ## The round trip -/

/-- The code that is generated for coding a structure or class, and the initializer that is
generated for it, show what they are run by, and they are run as follows.  Encoding an object
writes each declared key once, in the order of the fields and at their types, and leaves nothing
else in the store.  Decoding reads the same keys at the same types, and
passes the values to the initializer in the order of the parameters and under their names.  The
initializer sets the property of each name to the parameter of that name.  So decoding what an
object was encoded to makes the object. -/
theorem decode_encode_fields (type : String) {fields : List Field} (isPublic isClass : Bool)
    (reach : InReach fields) :
    let e := Codable.ofFields type fields isPublic isClass
    let m : MemberwiseInit := ⟨fields, isPublic⟩
    (∀ (n : Nominal) (o : Options) (s : Settings), n.IsProductOf s type fields isPublic isClass →
      (o.serialization = true →
        ∃ text ∈ n.blocks o s, text = e.render s.indentUnit ∧ e.StandsIn s.indentUnit text) ∧
      (o.memberwiseInit = true →
        ∃ text ∈ n.blocks o s, text = m.render s.indentUnit ∧ m.StandsIn s.indentUnit text)) ∧
    ∃ keys opening arguments,
      e.keyCases? outerKeys = some keys ∧ keys.Nodup ∧ keys = fields.map Field.name ∧
      e.body? (.decode isClass) = some [opening, .step (.delegate arguments)] ∧
      arguments.map Decoded.name = m.parameters.map Parameter.name ∧
      m.assignments = m.parameters.map (fun p => ⟨p.name, p.name⟩) ∧
      ∀ o : Object α, o.HasFields fields →
        ∃ store accesses,
          encodeObject e m o = .ok (store, accesses) ∧
          accesses.map Access.key = keys ∧
          accesses.map Access.type = fields.map Field.type ∧
          (∀ k, (store k).isSome = true ↔ k ∈ keys) ∧
          decodeObject e m isClass store = .ok (o, accesses) := by
  intro e m
  refine ⟨fun n o s is => ⟨fun asked => ?_, fun asked => ?_⟩, ?_⟩
  · exact ⟨_, is.coding_mem_blocks asked, rfl, e.standsIn_render _⟩
  · exact ⟨_, is.memberwise_mem_blocks asked, rfl, m.standsIn_render _⟩
  refine ⟨_, _, _, keyCases?_fields type isPublic isClass, reach.names, rfl,
    body?_decodeFields type isPublic isClass, ?_, ?_, fun o has => ?_⟩
  · simp only [m, MemberwiseInit.parameters, List.map_map]
    rfl
  · simp only [m, MemberwiseInit.parameters, MemberwiseInit.assignments, List.map_map]
    rfl
  · refine ⟨_, _, encodeObject_ofFields m reach has, ?_, ?_, fun k => ?_,
      decodeObject_ofFields has⟩
    · rw [List.map_map]
      rfl
    · rw [List.map_map]
      rfl
    · rw [stored, Option.isSome_map]
      refine ⟨fun some => ?_, fun mem => ?_⟩
      · by_contra other
        rw [has.only k other] at some
        cases some
      · obtain ⟨f, field, rfl⟩ := List.mem_map.mp mem
        obtain ⟨v, here, -⟩ := has.value f field
        rw [here]
        rfl

/-- A point of a plane with a label. -/
def pointFields : List Field :=
  [⟨"x", "Int", some "0"⟩, ⟨"y", "Int", none⟩, ⟨"decoder", "String?", none⟩]

/-- A value of such a point. -/
def point : Object Nat := fun name =>
  [("x", ⟨"Int", 3⟩), ("y", ⟨"Int", 4⟩), ("decoder", ⟨"String?", 5⟩)].lookup name

/-- A public class with these fields. -/
def pointType : Nominal where
  head := ⟨⟨1, 1⟩, .classKind, "Point", ["public"], [], []⟩
  members := [.property ⟨⟨2, 5⟩, "var", [⟨some "x", some "Int", some "0"⟩], .stored, []⟩,
    .property ⟨⟨3, 5⟩, "var", [⟨some "y", some "Int", none⟩], .stored, []⟩,
    .property ⟨⟨4, 5⟩, "var", [⟨some "decoder", some "String?", none⟩], .stored, []⟩]

theorem decode_encode_point :
    (∃ text ∈ pointType.blocks .everything {},
      (⟨pointFields, true⟩ : MemberwiseInit).StandsIn ({} : Settings).indentUnit text) ∧
    ∃ store, encodeObject (Codable.ofFields "Point" pointFields true true) ⟨pointFields, true⟩
        point = .ok (store, [⟨"x", "Int"⟩, ⟨"y", "Int"⟩, ⟨"decoder", "String?"⟩]) ∧
      decodeObject (Codable.ofFields "Point" pointFields true true) ⟨pointFields, true⟩ true
        store = .ok (point, [⟨"x", "Int"⟩, ⟨"y", "Int"⟩, ⟨"decoder", "String?"⟩]) := by
  have reach : InReach pointFields := ⟨by decide, by decide, by decide, by decide⟩
  have has : point.HasFields pointFields := by
    refine ⟨by simp [pointFields, point, List.lookup_cons], fun name other => ?_⟩
    simp only [pointFields, List.map_cons, List.map_nil, List.mem_cons, List.not_mem_nil,
      or_false, not_or] at other
    obtain ⟨x, y, label⟩ := other
    simp [point, List.lookup_cons, beq_false_of_ne x, beq_false_of_ne y, beq_false_of_ne label]
  have isProduct : pointType.IsProductOf {} "Point" pointFields true true :=
    ⟨rfl, rfl, by decide, rfl, rfl⟩
  obtain ⟨blocks, keys, opening, arguments, -, -, names, -, -, -, trip⟩ :=
    @decode_encode_fields Nat "Point" pointFields true true reach
  obtain ⟨text, mem, -, stands⟩ := (blocks pointType .everything {} isProduct).2 rfl
  obtain ⟨store, accesses, encoded, written, types, -, decoded⟩ := trip point has
  have are : accesses = [⟨"x", "Int"⟩, ⟨"y", "Int"⟩, ⟨"decoder", "String?"⟩] := by
    rw [names] at written
    match accesses, written, types with
    | [⟨_, _⟩, ⟨_, _⟩, ⟨_, _⟩], written, types =>
      simp only [List.map_cons, List.map_nil, pointFields, List.cons.injEq, and_true]
        at written types
      obtain ⟨rfl, rfl, rfl⟩ := written
      obtain ⟨rfl, rfl, rfl⟩ := types
      rfl
  exact ⟨⟨text, mem, stands⟩, store, are ▸ encoded, are ▸ decoded⟩

end Conformance.Coding
