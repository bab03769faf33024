import Conformance.Path

/-!
# Hosts

What the program asks of its surroundings: to read and write files, and to read
the standard input.  A host answers in any monad, so the same program runs on a
file system and on a plain value (`FileTree.host`).
-/

namespace Conformance

/-! ## Faults -/

/-- Why a file cannot be read or written. -/
inductive FileFault where
  | notFound
  | isDirectory
  | notDirectory
  | nameTooLong
  | other (text : String)
deriving DecidableEq, Repr

/-- The wording of a fault. -/
def FileFault.message : FileFault → String
  | notFound => "No such file or directory"
  | isDirectory => "Is a directory"
  | notDirectory => "Not a directory"
  | nameTooLong => "File name too long"
  | other text => text

/-- The number of a fault. -/
def FileFault.number : FileFault → Nat
  | notFound => 2
  | notDirectory => 20
  | isDirectory => 21
  | nameTooLong => 36
  | other _ => 5

/-! ## Hosts -/

/-- What the program asks of its surroundings. -/
structure Host (m : Type → Type) where
  /-- The directory in which the program runs. -/
  directory : Path
  /-- Whether a path leads to a file.  It does not if nothing is there, or a directory, and that
  is no fault. -/
  isFile : Path → m (Except FileFault Bool)
  /-- The bytes of a file. -/
  read : Path → m (Except FileFault (List UInt8))
  /-- Opens a file to write it, which makes it or empties it. -/
  create : Path → m (Except FileFault Unit)
  /-- Writes a text to a file that is open. -/
  write : Path → String → m (Except FileFault Unit)
  /-- The bytes of the standard input. -/
  standardInput : m (List UInt8)

end Conformance
