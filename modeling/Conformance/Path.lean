import Conformance.Text.Words

/-!
# Paths

A path is a root and names.  Its text is cut at slashes; empty names and single
dots say nothing and are dropped.  Two dots stay, because the name before them may
turn out not to be a directory.

A path without a slash in front is relative, and one without names is its own
directory.
-/

namespace Conformance

/-- A path in a file system. -/
structure Path where
  /-- What an absolute path starts with, empty for a relative one. -/
  root : String
  /-- The names. -/
  names : List String
deriving DecidableEq, Repr

namespace Path

/-- What the text of a path starts with.  Exactly two slashes are a root of their own. -/
def rootOf : List Char → String
  | '/' :: '/' :: '/' :: _ => "/"
  | '/' :: '/' :: _ => "//"
  | '/' :: _ => "/"
  | _ => ""

/-- The path of a text. -/
def ofText (s : String) : Path where
  root := rootOf s.toList
  names := ((Text.splitWords (· == '/') s.toList).map String.ofList).filter (· != ".")

/-- The text of a path. -/
def text (p : Path) : String :=
  if p.root == "" && p.names.isEmpty then "." else p.root ++ "/".intercalate p.names

/-- Whether a path starts at the root of the file system. -/
def startsAtRoot (p : Path) : Bool := p.root == "/" || p.root == "//"

/-- Whether a path holds the null character, with which no file system takes it. -/
def hasNull (p : Path) : Bool := p.text.toList.contains '\x00'

/-- The path of a name in a directory. -/
def child (p : Path) (name : String) : Path := { p with names := p.names ++ [name] }

example : (ofText "./a//b/../c.json").text = "a/b/../c.json" := by decide
example : (ofText "").text = "." := by decide

end Path

end Conformance
