import Conformance.Code.Equality
import Conformance.Proofs.Coding.Machine

/-!
# Running comparisons and hashes

What the functions of generated equality and hashing do, read off their statements.  How
two components compare is a parameter, and so is what a component is.

* A comparison comes to a verdict.  It is done with the first guard that fails.
* A hash comes to the items that are fed to it, in order.  An item is a component, or the
  text that the property for the name of a variant has.

A name stands for a local, or else for a member of the value that the function belongs to.
With a dot in it, it stands for a member of a local.  A run has no result where the code
means nothing: at a name that stands for nothing, at a value that no arm of a switch is
for, at a step of some other function.
-/

namespace Conformance

namespace Comparing

/-! ## Values -/

/-- A value of a type. -/
inductive Value (α : Type) where
  /-- A structure or class: its fields. -/
  | product (fields : List (String × α))
  /-- An enumeration: its variant, and what is in the slots. -/
  | sum (name : String) (slots : List α)

/-- The field of a value. -/
def Value.field? {α : Type} : Value α → String → Option α
  | product fields, name => fields.lookup name
  | sum .., _ => none

/-- What is fed to a hash. -/
inductive Item (α : Type) where
  /-- The name of a variant. -/
  | text (chars : List Char)
  /-- A component. -/
  | component (a : α)

/-- What a local name stands for. -/
inductive Local (α : Type) where
  /-- A component. -/
  | component (a : α)
  /-- A whole value. -/
  | value (v : Value α)
  /-- The hash that items are fed to. -/
  | hash

/-! ## Programs -/

/-- Generated code with what it is run on. -/
structure Program (α : Type) where
  /-- The extensions of a type. -/
  extensions : List Extension
  /-- The names for stable hashes. -/
  names : StableHashNames
  /-- Whether two components are equal. -/
  equal : α → α → Bool

/-- The characters of a string literal, from behind its first quote. -/
def literalChars : List Char → Option (List Char)
  | ['"'] => some []
  | '\\' :: c :: rest =>
    if c = '\\' ∨ c = '"' then (literalChars rest).map (c :: ·) else none
  | c :: rest => if c = '"' then none else (literalChars rest).map (c :: ·)
  | [] => none

/-- The text that a string literal stands for. -/
def literal? (text : String) : Option (List Char) :=
  match text.toList with
  | '"' :: rest => literalChars rest
  | _ => none

namespace Program

variable {α : Type}

/-- The body of a function of the type. -/
def body? (p : Program α) (method : Method) : Option (List Statement) :=
  p.extensions.findSome? (Extension.body? · method)

/-- The name of a value's variant, as the function for it returns it. -/
def nameOf? (p : Program α) (v : Value α) : Option (List Char) :=
  match v, p.body? .variantName with
  | .sum name _, some [.returnName texts] => (texts.lookup name).bind literal?
  | _, _ => none

end Program

/-! ## States -/

/-- The state of a run. -/
structure State (α : Type) where
  /-- The value that the function belongs to, if it belongs to one. -/
  self? : Option (Value α)
  /-- The local names, the latest first. -/
  locals : List (String × Local α)
  /-- What has been fed to the hash. -/
  items : List (Item α)

/-- What a run comes to. -/
inductive Outcome (α : Type) where
  /-- It goes on. -/
  | onward (s : State α)
  /-- It returns a verdict. -/
  | verdict (same : Bool)
  /-- It returns the hash of some items. -/
  | hash (items : List (Item α))

namespace State

variable {α : Type}

/-- The state with another local name. -/
def bind (s : State α) (name : String) (l : Local α) : State α :=
  { s with locals := (name, l) :: s.locals }

/-- The state with the slots of a value bound to names, if these fit. -/
def bindAll (s : State α) (names : List String) (slots : List α) : Option (State α) :=
  if names = [] ∨ names.length = slots.length then
    some { s with locals := names.zip (slots.map .component) ++ s.locals }
  else none

/-- The state with another item fed to the hash. -/
def feed (s : State α) (item : Item α) : State α := { s with items := s.items ++ [item] }

/-- The value that a name stands for. -/
def value? (s : State α) (name : String) : Option (Value α) :=
  if name = "self" then s.self? else
    match s.locals.lookup name with
    | some (.value v) => some v
    | _ => none

/-- The field behind the dot of a name, of the local in front of it. -/
def fieldOfLocal? (s : State α) (name : String) : Option α :=
  let front := name.toList.takeWhile (· != '.')
  let back := name.toList.dropWhile (· != '.')
  match s.locals.lookup (String.ofList front) with
  | some (.value v) => v.field? (String.ofList back.tail)
  | _ => none

/-- The component that a name stands for. -/
def component? (s : State α) (name : String) : Option α :=
  match s.locals.lookup name, s.self? with
  | some (.component a), _ => some a
  | some _, _ => none
  | none, some v => v.field? name
  | none, none => s.fieldOfLocal? name

/-- The item that a name stands for: the name of the variant, or a component. -/
def item? (p : Program α) (s : State α) (name : String) : Option (Item α) :=
  match s.locals.lookup name, s.self? with
  | none, some (.sum variant slots) =>
    if name = nameProperty then (p.nameOf? (.sum variant slots)).map .text else none
  | _, _ => (s.component? name).map .component

/-- The state with what a name stands for fed to the hash of another name. -/
def feedTo (p : Program α) (s : State α) (hash name : String) : Option (State α) :=
  match s.locals.lookup hash with
  | some .hash => (s.item? p name).map s.feed
  | _ => none

end State

/-! ## Steps and statements -/

section
variable {α : Type}

/-- What a guard comes to. -/
def guarded (holds : Bool) (s : State α) : Outcome α :=
  if holds then .onward s else .verdict false

/-- The local name of the hash for one run. -/
def hasherName : String := "hasher"

/-- What a step does. -/
def runStep (p : Program α) (s : State α) : Step → Option (Outcome α)
  | .blank => some (.onward s)
  | .returnEqual pairs => do
    let verdicts ← pairs.mapM fun (left, right) => do
      pure (p.equal (← s.component? left) (← s.component? right))
    pure (.verdict (verdicts.all id))
  | .returnTrue => some (.verdict true)
  | .requireSameName => do
    let left ← p.nameOf? (← s.value? "lhs")
    let right ← p.nameOf? (← s.value? "rhs")
    pure (guarded (left == right) s)
  | .requireRight pattern => do
    match ← s.value? "rhs" with
    | .sum name slots =>
      if name = pattern.name then (s.bindAll pattern.bound slots).map .onward
      else pure (.verdict false)
    | .product _ => none
  | .requireEqual left right => do
    pure (guarded (p.equal (← s.component? left) (← s.component? right)) s)
  | .feed name => (s.feedTo p hasherName name).map .onward
  | .startHash => some (.onward (s.bind hashName .hash))
  | .mix combine name property =>
    if combine = p.names.combine ∧ property = p.names.property then
      (s.feedTo p hashName name).map .onward
    else none
  | .returnHash =>
    match s.locals.lookup hashName with
    | some .hash => some (.hash s.items)
    | _ => none
  | _ => none

/-- Goes on from what has been come to, unless that is a result. -/
def Outcome.andThen (o : Outcome α) (next : State α → Option (Outcome α)) : Option (Outcome α) :=
  match o with
  | .onward s => next s
  | o => some o

/-- Several steps in order. -/
def runSteps (p : Program α) : State α → List Step → Option (Outcome α)
  | s, [] => some (.onward s)
  | s, step :: steps => do (← runStep p s step).andThen fun t => runSteps p t steps

/-- What an arm does for the slots of a value.  Its local names end with it. -/
def runArm (p : Program α) (s : State α) (slots : List α) (arm : Arm) : Option (Outcome α) := do
  let bound ← s.bindAll arm.pattern.bound slots
  (← runSteps p bound arm.body).andThen fun t => some (.onward { t with locals := s.locals })

/-- What a statement does. -/
def runStatement (p : Program α) (s : State α) : Statement → Option (Outcome α)
  | .step step => runStep p s step
  | .switch subject arms otherwise =>
    match s.value? subject with
    | some (.sum name slots) =>
      match arms.find? fun arm => arm.pattern.name == name with
      | some arm => runArm p s slots arm
      | none => if otherwise then some (.onward s) else none
    | _ => none
  | _ => none

/-- Several statements in order. -/
def runBody (p : Program α) : State α → List Statement → Option (Outcome α)
  | s, [] => some (.onward s)
  | s, statement :: statements => do
    (← runStatement p s statement).andThen fun t => runBody p t statements

/-! ## The functions -/

namespace Program

/-- The verdict of the comparison of two values. -/
def equals (p : Program α) (type : String) (a b : Value α) : Option Bool := do
  let method := Method.equals type
  let start := ⟨none, method.parameters.zip [.value a, .value b], []⟩
  match ← runBody p start (← p.body? method) with
  | .verdict same => some same
  | _ => none

/-- What the hash for one run is fed of a value. -/
def hash (p : Program α) (a : Value α) : Option (List (Item α)) := do
  let start := ⟨some a, Method.hash.parameters.zip [.hash], []⟩
  match ← runBody p start (← p.body? .hash) with
  | .onward s => some s.items
  | _ => none

/-- What the stable hash is fed of a value. -/
def stableHash (p : Program α) (a : Value α) : Option (List (Item α)) := do
  match ← runBody p ⟨some a, [], []⟩ (← p.body? (.stableHash p.names.property)) with
  | .hash items => some items
  | _ => none

end Program

end

end Comparing

end Conformance
