import Conformance.Text.Digit
import Conformance.Text.Quoted

/-!
# Arguments of the command line

An argument is an option, the mark `--` behind which there are none, or a plain
argument.  A long option may be cut short as long as only one begins like that,
and may hold its value behind an equals sign.  Short options may stand together
behind one dash, the last of them with its value.

What starts with a dash is not always an option.  A single dash, a negative
number, and an unknown text with a space in it are plain.

Arguments are taken from left to right.  The first plain one is the content; an
option takes its value along.  A request for help ends the run at once, and so
does the first mistake, but arguments that nothing takes are reported last.

The mark is no value.  An option that is given it in its own argument, as in
`--config=--`, is given and has nothing for a value.
-/

namespace Conformance.Command

/-! ## Options -/

/-- The options. -/
inductive Switch where
  | help | inline | codable | equatable | hashable | stableHashable | memberwiseInit | all
  | config | output | json
deriving DecidableEq, Repr

namespace Switch

/-- The spellings of the options, in the order in which they are listed. -/
def spellings : List (String × Switch) := [
  ("-h", help), ("--help", help), ("-I", inline), ("--codable", codable),
  ("--equatable", equatable), ("--hashable", hashable), ("--stable-hashable", stableHashable),
  ("--memberwise-init", memberwiseInit), ("--all", all), ("--config", config),
  ("-o", output), ("--output", output), ("--json", json)]

/-- The option of a spelling. -/
def ofSpelling? (s : String) : Option Switch := spellings.lookup s

/-- Whether an option has a value. -/
def takesValue : Switch → Bool
  | config | output => true
  | _ => false

/-- The spellings of an option with slashes between them. -/
def title (s : Switch) : String :=
  "/".intercalate ((spellings.filter fun (_, t) => t == s).map Prod.fst)

end Switch

/-- The value of an option. -/
inductive OptionValue where
  /-- A text. -/
  | text (s : String)
  /-- Nothing, where the mark stands in place of a value. -/
  | nothing
deriving DecidableEq, Repr

/-- The value that a text gives. -/
def OptionValue.ofText (s : String) : OptionValue := if s = "--" then nothing else text s

/-- The options and arguments of a run. -/
structure Arguments where
  /-- The file to read, a dash for the standard input, or the source itself. -/
  content : Option String := none
  /-- The options without a value that are given. -/
  flags : List Switch := []
  /-- The configuration file. -/
  config : Option OptionValue := none
  /-- The file to write. -/
  output : Option OptionValue := none
deriving DecidableEq, Repr

namespace Arguments

/-- Whether an option without a value is given. -/
def has (a : Arguments) (s : Switch) : Bool := a.flags.contains s

/-- The arguments with one more option.  Of an option with a value the last one counts. -/
def give (a : Arguments) (s : Switch) (value : String) : Arguments :=
  match s with
  | .config => { a with config := some (.ofText value) }
  | .output => { a with output := some (.ofText value) }
  | _ => { a with flags := s :: a.flags }

end Arguments

/-! ## Mistakes -/

/-- A mistake in the arguments. -/
inductive Mistake where
  /-- An option cut so short that several begin like that. -/
  | ambiguous (argument : String) (candidates : List String)
  /-- An option without its value. -/
  | valueExpected (s : Switch)
  /-- An option with a value that it does not have. -/
  | valueIgnored (s : Switch) (value : String)
  /-- No content. -/
  | contentMissing
  /-- Arguments that nothing takes. -/
  | unrecognized (arguments : List String)
deriving DecidableEq, Repr

/-- The wording of a mistake. -/
def Mistake.message : Mistake → String
  | ambiguous argument candidates =>
    "ambiguous option: " ++ argument ++ " could match " ++ ", ".intercalate candidates
  | valueExpected s => "argument " ++ s.title ++ ": expected one argument"
  | valueIgnored s value =>
    "argument " ++ s.title ++ ": ignored explicit argument " ++ Text.quoted value
  | contentMissing => "the following arguments are required: content"
  | unrecognized arguments => "unrecognized arguments: " ++ " ".intercalate arguments

/-! ## Single arguments -/

/-- An option as it is given. -/
structure Given where
  /-- The option. -/
  switch : Switch
  /-- Its spelling, in full. -/
  spelling : String
  /-- What stands behind it in the same argument. -/
  attached : Option String
deriving DecidableEq, Repr

/-- What an argument is. -/
inductive Piece where
  /-- A plain argument. -/
  | plain (s : String)
  /-- The mark behind which there are no options. -/
  | mark
  /-- An option. -/
  | option (g : Given)
  /-- Something like an option that is none. -/
  | unknown (s : String)
deriving DecidableEq, Repr

/-- The text in front of the first equals sign, and what stands behind it if there is one. -/
def cutAtEquals (cs : List Char) : String × Option String :=
  match cs.dropWhile (· != '=') with
  | [] => (String.ofList cs, none)
  | _ :: behind => (String.ofList (cs.takeWhile (· != '=')), some (String.ofList behind))

/-- Whether a text begins like another. -/
def beginsWith (s start : String) : Bool := start.toList.isPrefixOf s.toList

/-- The options that an argument may be short for. -/
def candidates (argument : String) : List Given :=
  match argument.toList with
  | '-' :: '-' :: _ =>
    let (start, attached) := cutAtEquals argument.toList
    (Switch.spellings.filter fun (spelling, _) => beginsWith spelling start).map
      fun (spelling, s) => ⟨s, spelling, attached⟩
  | '-' :: c :: behind =>
    Switch.spellings.filterMap fun (spelling, s) =>
      if spelling == String.ofList ['-', c] then some ⟨s, spelling, some (String.ofList behind)⟩
      else if beginsWith spelling argument then some ⟨s, spelling, none⟩
      else none
  | _ => []

/-- The text without a line feed at its end. -/
def dropLineFeed (cs : List Char) : List Char :=
  if cs.getLast? = some '\n' then cs.dropLast else cs

/-- Whether a text is a negative number in digits, with perhaps a point.  A line feed may follow. -/
def isNegativeNumber (cs : List Char) : Bool :=
  match dropLineFeed cs with
  | '-' :: rest =>
    let digits (ds : List Char) : Bool := !ds.isEmpty && ds.all Text.isDecimal
    match rest.dropWhile Text.isDecimal with
    | '.' :: behind => digits behind
    | _ => digits rest
  | _ => false

/-- What an argument in front of the mark is. -/
def classify (argument : String) : Except Mistake Piece :=
  let cs := argument.toList
  if cs.head? != some '-' || cs.length = 1 then .ok (.plain argument)
  else match Switch.ofSpelling? argument with
    | some s => .ok (.option ⟨s, argument, none⟩)
    | none =>
      let (start, attached) := cutAtEquals cs
      match attached, Switch.ofSpelling? start with
      | some value, some s => .ok (.option ⟨s, start, some value⟩)
      | _, _ =>
        match candidates argument with
        | [g] => .ok (.option g)
        | g :: more => .error (.ambiguous argument ((g :: more).map Given.spelling))
        | [] =>
          if isNegativeNumber cs || cs.contains ' ' then .ok (.plain argument)
          else .ok (.unknown argument)

/-- What the arguments are. -/
def classifyAll : List String → Except Mistake (List Piece)
  | [] => .ok []
  | argument :: rest =>
    if argument = "--" then .ok (.mark :: rest.map .plain)
    else do
      let p ← classify argument
      let ps ← classifyAll rest
      .ok (p :: ps)

/-! ## Taking arguments -/

/-- Where taking arguments comes to. -/
inductive Parsed where
  /-- A run. -/
  | run (a : Arguments)
  /-- A request for help. -/
  | help
  /-- A mistake. -/
  | mistake (m : Mistake)
deriving DecidableEq, Repr

/-- What one argument comes to. -/
structure Taken where
  /-- Its options, each with its value, empty for an option without one. -/
  given : List (Switch × String)
  /-- The pieces behind it and its value. -/
  rest : List Piece

/-- A text, if it is not empty. -/
def attachedText : List Char → Option String
  | [] => none
  | cs => some (String.ofList cs)

/-- Takes an option with its value, and the short options that stand together with it, of which
`fuel` bounds the number.  What is attached to a short option without a value has to begin with
the letter of another short option. -/
def takeOption : (fuel : Nat) → Given → List Piece → Except Mistake Taken
  | 0, g, rest => .ok ⟨[(g.switch, "")], rest⟩
  | fuel + 1, g, rest =>
    match g.attached with
    | none =>
      if g.switch.takesValue then
        match rest with
        | .plain value :: rest => .ok ⟨[(g.switch, value)], rest⟩
        | _ => .error (.valueExpected g.switch)
      else .ok ⟨[(g.switch, "")], rest⟩
    | some value =>
      if g.switch.takesValue then .ok ⟨[(g.switch, value)], rest⟩
      else match value.toList, beginsWith g.spelling "--" with
        | c :: behind, false =>
          let spelling := String.ofList ['-', c]
          match Switch.ofSpelling? spelling with
          | some s => do
            let t ← takeOption fuel ⟨s, spelling, attachedText behind⟩ rest
            .ok { t with given := (g.switch, "") :: t.given }
          | none => .error (.valueIgnored g.switch value)
        | _, _ => .error (.valueIgnored g.switch value)

/-- Gives options.  There is nothing to run if one of them asks for help. -/
def giveAll : List (Switch × String) → Arguments → Option Arguments
  | [], a => some a
  | (s, value) :: rest, a => if s = .help then none else giveAll rest (a.give s value)

/-- The text of a piece that nothing takes. -/
def Piece.text : Piece → String
  | plain s | unknown s => s
  | mark => "--"
  | option g => g.spelling

/-- The end of taking arguments: the content has to be there, and nothing may be left over. -/
def finish (a : Arguments) (leftOver : List String) : Parsed :=
  if a.content.isNone then .mistake .contentMissing
  else if leftOver.isEmpty then .run a
  else .mistake (.unrecognized leftOver)

/-- The pieces behind the last option.  The content may stand on either side of the mark, which
belongs to it then. -/
def takeLast (a : Arguments) (leftOver : List String) (ps : List Piece) : Parsed :=
  let left (ps : List Piece) : List String := leftOver ++ ps.map Piece.text
  match a.content, ps with
  | none, .mark :: .plain s :: rest => finish { a with content := some s } (left rest)
  | none, .plain s :: .mark :: rest => finish { a with content := some s } (left rest)
  | none, .plain s :: rest => finish { a with content := some s } (left rest)
  | _, ps => finish a (left ps)

/-- Whether a piece is an option or like one. -/
def Piece.isOption : Piece → Bool
  | option _ | unknown _ => true
  | _ => false

/-- Takes pieces from left to right.  Each takes one unit of fuel. -/
def takeAll : (fuel : Nat) → Arguments → (leftOver : List String) → List Piece → Parsed
  | 0, a, leftOver, _ => finish a leftOver
  | fuel + 1, a, leftOver, ps =>
    if !ps.any Piece.isOption then takeLast a leftOver ps
    else match ps with
      | .option g :: rest =>
        match takeOption (g.attached.getD "").length.succ g rest with
        | .error m => .mistake m
        | .ok t =>
          match giveAll t.given a with
          | none => .help
          | some a => takeAll fuel a leftOver t.rest
      | .plain s :: rest =>
        if a.content.isNone then takeAll fuel { a with content := some s } leftOver rest
        else takeAll fuel a (leftOver ++ [s]) rest
      | p :: rest => takeAll fuel a (leftOver ++ [p.text]) rest
      | [] => finish a leftOver

/-- The arguments of a command line. -/
def parse (args : List String) : Parsed :=
  match classifyAll args with
  | .error m => .mistake m
  | .ok ps => takeAll (ps.length + 1) {} [] ps

end Conformance.Command
