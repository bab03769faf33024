import Conformance.Host

/-!
# File trees

Files and directories as a plain value, a list of entries under their places.  A
place is the names on the way from the root, so the root itself is the place
without names.

A path is walked name by name, so it fails at the first name that cannot be
passed, in the way a file system does.  Two dots go up, and stay at the root.
-/

namespace Conformance

/-- What stands under a name. -/
inductive Entry where
  | file (bytes : List UInt8)
  | directory
deriving DecidableEq, Repr

/-- Files and directories under their places. -/
structure FileTree where
  /-- The entries. -/
  entries : List (List String × Entry)
deriving Repr

namespace FileTree

/-- What stands at a place.  The root is a directory. -/
def find? (t : FileTree) (place : List String) : Option Entry :=
  if place.isEmpty then some .directory else t.entries.lookup place

/-- Puts an entry at a place. -/
def put (t : FileTree) (place : List String) (e : Entry) : FileTree :=
  ⟨(place, e) :: t.entries.filter fun (p, _) => p != place⟩

/-- Puts an entry at a place, with the directories above it. -/
def add (t : FileTree) (place : List String) (e : Entry) : FileTree :=
  let above := (List.range place.length).map place.take
  let missing := above.filter fun p => (t.find? p).isNone
  (missing.foldl (fun t p => t.put p .directory) t).put place e

/-- The most bytes of a name. -/
def nameLimit : Nat := 255

/-- The least bytes of a path that is too long. -/
def pathLimit : Nat := 4096

/-- The place that names lead to from a directory.  Only the last name need not be there. -/
def walk (t : FileTree) (here : List String) : List String → Except FileFault (List String)
  | [] => .ok here
  | name :: rest =>
    match t.find? here with
    | none => .error .notFound
    | some (.file _) => .error .notDirectory
    | some .directory =>
      if name = ".." then t.walk here.dropLast rest
      else if nameLimit < name.utf8ByteSize then .error .nameTooLong
      else t.walk (here ++ [name]) rest

/-- The place that a path leads to.  One that does not start at the root starts at `here`. -/
def resolve (t : FileTree) (here : List String) (p : Path) : Except FileFault (List String) :=
  if pathLimit ≤ p.text.utf8ByteSize then .error .nameTooLong
  else t.walk (if p.startsAtRoot then [] else here) p.names

/-- The bytes of a file. -/
def read (t : FileTree) (here : List String) (p : Path) : Except FileFault (List UInt8) := do
  match t.find? (← t.resolve here p) with
  | some (.file bytes) => .ok bytes
  | some .directory => .error .isDirectory
  | none => .error .notFound

/-- The tree with a file made or replaced. -/
def write (t : FileTree) (here : List String) (p : Path) (bytes : List UInt8) :
    Except FileFault FileTree := do
  let place ← t.resolve here p
  match t.find? place with
  | some .directory => .error .isDirectory
  | _ => .ok (t.put place (.file bytes))

/-- Whether a path leads to a file. -/
def isFile (t : FileTree) (here : List String) (p : Path) : Except FileFault Bool :=
  match t.read here p with
  | .ok _ => .ok true
  | .error .nameTooLong => .error .nameTooLong
  | .error _ => .ok false

/-- A host whose files are a tree.  It runs at the place `here`, under the name `directory`. -/
def host (here : List String) (directory : Path) (input : List UInt8) :
    Host (StateM FileTree) where
  directory
  isFile p := do return (← get).isFile here p
  read p := do return (← get).read here p
  create p := do
    match (← get).write here p [] with
    | .ok t => set t; return .ok ()
    | .error e => return .error e
  write p text := do
    match (← get).write here p text.toUTF8.toList with
    | .ok t => set t; return .ok ()
    | .error e => return .error e
  standardInput := return input

end FileTree

end Conformance
