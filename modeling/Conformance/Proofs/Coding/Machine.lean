import Conformance.Code.Codable

/-!
# Running coding functions

What the functions of a generated `Codable` extension do, read off their statements.

A *store* is keyed.  Under a key it holds nothing, a value with the text of its type,
or a store below, whose entries are values.  Writing to a container puts an entry under
one of the keys that the container is keyed by.  Reading wants the key to be there, and
a value only comes out at the type it went in with.

Locals live in one scope, containers along with values, so a name that is bound twice
hides what it stood for.  The keys of a container are those of the enumeration that its
name stands for in the extension.

A run gets *stuck* where the code means nothing: at a name without a local, at keys that
are not declared, at a step of some other function.  It *throws* where the code gives up.
-/

namespace Conformance

/-! ## Looking up members -/

namespace CodeMember

/-- The keys of a member, if it is the enumeration of a name. -/
def cases? (name : String) : CodeMember → Option (List String)
  | keys name' _ cases => if name' = name then some cases else none
  | function .. => none

/-- The body of a member, if it is the function of a method. -/
def body? (method : Method) : CodeMember → Option (List Statement)
  | keys .. => none
  | function method' body => if method' = method then some body else none

end CodeMember

namespace Extension

/-- The keys that an enumeration of an extension declares. -/
def keyCases? (e : Extension) (name : String) : Option (List String) :=
  e.members.findSome? (CodeMember.cases? name)

/-- The body of a function of an extension. -/
def body? (e : Extension) (method : Method) : Option (List Statement) :=
  e.members.findSome? (CodeMember.body? method)

end Extension

namespace Coding

/-! ## Stores -/

/-- A value with the text of its type. -/
structure Typed (α : Type) where
  /-- The type. -/
  type : String
  /-- The value. -/
  value : α

/-- The entries of a store below another. -/
abbrev Slots (α : Type) := String → Option (Typed α)

/-- What a store holds under a key. -/
inductive Entry (α : Type) where
  /-- The key is there, and has no value. -/
  | nil
  /-- A value. -/
  | value (v : Typed α)
  /-- A store below. -/
  | nested (slots : Slots α)

/-- A store, by its keys. -/
abbrev Keyed (α : Type) := String → Option (Entry α)

/-- What is under a key of either kind of store, changed. -/
def put {β : Type} (s : String → Option β) (key : String) (b : β) : String → Option β :=
  fun k => if k = key then some b else s k

/-- A value of an enumeration. -/
structure CaseValue (α : Type) where
  /-- Its variant. -/
  name : String
  /-- The values of its slots. -/
  slots : List (Typed α)

/-- A value of an enumeration that is put together, with the labels that are passed. -/
structure Made (α : Type) where
  /-- Its variant. -/
  name : String
  /-- The values of its slots, each behind its label. -/
  arguments : List (Option String × Typed α)

/-! ## States -/

/-- What a local name stands for. -/
inductive Local (α : Type) where
  /-- A value. -/
  | value (v : Typed α)
  /-- A value of the enumeration. -/
  | object (c : CaseValue α)
  /-- A key. -/
  | key (k : String)
  /-- The outer store, for writing under some keys. -/
  | writer (keys : List String)
  /-- The outer store, for reading under some keys. -/
  | reader (keys : List String)
  /-- The store below a key, for writing. -/
  | innerWriter (below : String) (keys : List String)
  /-- A store below, for reading. -/
  | innerReader (slots : Slots α) (keys : List String)

/-- Why a run ends early. -/
inductive Fault where
  /-- The code gives up. -/
  | thrown
  /-- The code means nothing. -/
  | stuck
deriving DecidableEq, Repr

/-- The state of a run. -/
structure State (α : Type) where
  /-- The local names, the latest first. -/
  locals : List (String × Local α)
  /-- The store. -/
  store : Keyed α
  /-- The value that has been made. -/
  made : Option (Made α)

namespace State

variable {α : Type}

/-- The state with another local name. -/
def bind (s : State α) (name : String) (l : Local α) : State α :=
  { s with locals := (name, l) :: s.locals }

/-- The state with several values bound to names. -/
def bindAll (s : State α) (names : List String) (values : List (Typed α)) : State α :=
  { s with locals := names.zip (values.map .value) ++ s.locals }

/-- The value that a name stands for. -/
def valueOf (s : State α) (name : String) : Except Fault (Typed α) :=
  match s.locals.lookup name with
  | some (.value v) => .ok v
  | _ => .error .stuck

/-- Puts an entry under a key of the outer store. -/
def write (s : State α) (key : String) (entry : Entry α) : Except Fault (State α) :=
  match s.locals.lookup Store.outer.name with
  | some (.writer keys) =>
    if key ∈ keys then .ok { s with store := put s.store key entry } else .error .stuck
  | _ => .error .stuck

/-- Puts a value under a key of the store below. -/
def writeInner (s : State α) (key : String) (v : Typed α) : Except Fault (State α) :=
  match s.locals.lookup Store.inner.name with
  | some (.innerWriter below keys) =>
    match s.store below with
    | some (.nested slots) =>
      if key ∈ keys then .ok { s with store := put s.store below (.nested (put slots key v)) }
      else .error .stuck
    | _ => .error .stuck
  | _ => .error .stuck

/-- The entry under a key of the outer store. -/
def entry (s : State α) (key : String) : Except Fault (Entry α) :=
  match s.locals.lookup Store.outer.name with
  | some (.reader keys) =>
    if key ∈ keys then (s.store key).elim (.error .thrown) .ok else .error .stuck
  | _ => .error .stuck

/-- The value under a key of the store below. -/
def slot (s : State α) (key : String) : Except Fault (Typed α) :=
  match s.locals.lookup Store.inner.name with
  | some (.innerReader slots keys) =>
    if key ∈ keys then (slots key).elim (.error .thrown) .ok else .error .stuck
  | _ => .error .stuck

end State

/-- A value at a type, which has to be the one it went in with. -/
def Typed.at {α : Type} (v : Typed α) (type : String) : Except Fault (Typed α) :=
  if v.type = type then .ok v else .error .thrown

/-! ## Steps and statements -/

section
variable {α : Type}

/-- What a step does. -/
def runStep (e : Extension) (s : State α) : Step → Except Fault (State α)
  | .openWriting keep =>
    match e.keyCases? outerKeys with
    | some keys => .ok (if keep then s.bind Store.outer.name (.writer keys) else s)
    | none => .error .stuck
  | .openReading keep =>
    match e.keyCases? outerKeys with
    | some keys => .ok (if keep then s.bind Store.outer.name (.reader keys) else s)
    | none => .error .stuck
  | .encode .outer value key => do s.write key (.value (← s.valueOf value))
  | .encode .inner value key => do s.writeInner key (← s.valueOf value)
  | .encodeNil key => s.write key .nil
  | .openInnerWriting keys key =>
    match e.keyCases? keys with
    | some cases => do
      let opened ← s.write key (.nested fun _ => none)
      pure (opened.bind Store.inner.name (.innerWriter key cases))
    | none => .error .stuck
  | .openInnerReading keys key =>
    match e.keyCases? keys with
    | some cases => do
      match ← s.entry key with
      | .nested slots => pure (s.bind Store.inner.name (.innerReader slots cases))
      | _ => .error .thrown
    | none => .error .stuck
  | .decodeNil key => do
    let _ ← s.entry key
    pure s
  | .decode d => do
    match ← s.entry d.key with
    | .value v => pure (s.bind d.name (.value (← v.at d.type)))
    | _ => .error .thrown
  | .decodeInner ds => do
    let values ← ds.mapM fun d => do (← s.slot d.key).at d.type
    pure (s.bindAll (ds.map Decoded.name) values)
  | .become c => do
    let arguments ← (c.arguments.getD []).mapM fun a => do pure (a.1, ← s.valueOf a.2)
    pure { s with made := some ⟨c.name, arguments⟩ }
  | .reject _ => .error .thrown
  | _ => .error .stuck

/-- Several steps in order. -/
def runSteps (e : Extension) : State α → List Step → Except Fault (State α)
  | s, [] => .ok s
  | s, step :: steps => do runSteps e (← runStep e s step) steps

/-- What an arm does.  Its local names end with it. -/
def runArm (e : Extension) (s : State α) (values : List (Typed α)) (arm : Arm) :
    Except Fault (State α) :=
  if arm.pattern.bound = [] ∨ arm.pattern.bound.length = values.length then do
    let after ← runSteps e (s.bindAll arm.pattern.bound values) arm.body
    pure { after with locals := s.locals }
  else .error .stuck

/-- The arm of a variant. -/
def armOf? (arms : List Arm) (name : String) : Option Arm :=
  arms.find? fun arm => arm.pattern.name == name

/-- The local name of the one key of a store. -/
def keyName : String := "key"

/-- What a statement does. -/
def runStatement (e : Extension) (s : State α) : Statement → Except Fault (State α)
  | .step step => runStep e s step
  | .switch subject arms otherwise =>
    let unmatched := if otherwise then .ok s else .error .stuck
    match s.locals.lookup subject with
    | some (.object c) => (armOf? arms c.name).elim unmatched (runArm e s c.slots)
    | some (.key k) => (armOf? arms k).elim unmatched (runArm e s [])
    | _ => .error .stuck
  | .returnName _ => .error .stuck
  | .requireOneKey _ =>
    match s.locals.lookup Store.outer.name with
    | some (.reader keys) =>
      match keys.filter fun k => (s.store k).isSome with
      | [k] => .ok (s.bind keyName (.key k))
      | _ => .error .thrown
    | _ => .error .stuck

/-- Several statements in order. -/
def runBody (e : Extension) : State α → List Statement → Except Fault (State α)
  | s, [] => .ok s
  | s, statement :: statements => do runBody e (← runStatement e s statement) statements

/-! ## The two functions -/

/-- What the encoding function leaves in an empty store. -/
def encode (e : Extension) (c : CaseValue α) : Except Fault (Keyed α) :=
  match e.body? .encode with
  | some body => do
    let after ← runBody e ⟨[("self", .object c)], fun _ => none, none⟩ body
    pure after.store
  | none => .error .stuck

/-- What the decoding function makes of a store. -/
def decode (e : Extension) (store : Keyed α) : Except Fault (Made α) :=
  match e.body? (.decode false) with
  | some body => do
    let after ← runBody e ⟨[], store, none⟩ body
    after.made.elim (.error .stuck) pure
  | none => .error .stuck

end

end Coding

end Conformance
