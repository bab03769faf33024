import Conformance.Command.Run

/-!
# The program

The command line on the files of the system.
-/

namespace Conformance

/-! ## Faults of the system -/

/-- The number and wording of an error of the system, if it is about a file. -/
def errorDetails? : IO.Error → Option (UInt32 × String)
  | .noFileOrDirectory _ code details => some (code, details)
  | .inappropriateType _ code details => some (code, details)
  | .invalidArgument _ code details => some (code, details)
  | .permissionDenied _ code details => some (code, details)
  | .resourceExhausted _ code details => some (code, details)
  | _ => none

/-- The fault of an error of the system. -/
def FileFault.ofError (e : IO.Error) : FileFault :=
  match errorDetails? e with
  | some (2, _) => .notFound
  | some (20, _) => .notDirectory
  | some (21, _) => .isDirectory
  | some (36, _) => .nameTooLong
  | some (_, details) => .other details
  | none => .other (toString e)

/-- The bytes of a file. -/
def readBytes (p : Path) : IO (List UInt8) := do
  let handle ← IO.FS.Handle.mk p.text .read
  return (← handle.readBinToEnd).toList

/-- The result of an action on files, or its fault. -/
def catchFault {α : Type} (action : IO α) : IO (Except FileFault α) := do
  try return .ok (← action)
  catch e => return .error (.ofError e)

/-! ## The host -/

/-- The files of the system, seen from a directory. -/
def systemHost (directory : Path) : Host IO where
  directory
  isFile p := do
    match ← catchFault (readBytes p) with
    | .ok _ | .error (.other _) => return .ok true
    | .error .nameTooLong => return .error .nameTooLong
    | .error _ => return .ok false
  read p := catchFault (readBytes p)
  create p := catchFault (IO.FS.writeFile p.text "")
  write p text := catchFault (IO.FS.writeFile p.text text)
  standardInput := do return (← (← IO.getStdin).readBinToEnd).toList

end Conformance

/-- Runs the program. -/
def main (args : List String) : IO UInt32 := do
  let directory := Conformance.Path.ofText (← IO.currentDir).toString
  match ← Conformance.Command.run (Conformance.systemHost directory) args with
  | .ok o =>
    IO.print o.out
    IO.eprint o.err
    return o.exitCode.toUInt32
  | .error b =>
    IO.eprintln b.message
    return 1
