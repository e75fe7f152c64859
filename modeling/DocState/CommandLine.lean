import DocState.Command
import DocState.Expression.Integer
import DocState.Separated

/-!
# The command line

* `CommandLine.Grammar`, `CommandLine.read`: what options a subcommand has, and the reading of its arguments.
* `CommandLine.Request`, `CommandLine.request?`: what the user asks for, if the arguments make sense.
* `CommandLine.answer`: exit status, standard output and standard error for the arguments.

The program itself makes room for texts of up to 4 GiB.
-/

namespace DocState.CommandLine

/-! ## Reading arguments -/

/-- An option with a short and a long name. -/
structure Switch where
  short : Char
  long : Text
  /-- Whether a value belongs to the option. -/
  takesValue : Bool
deriving DecidableEq, Repr

/-- The options of a subcommand. -/
structure Grammar where
  switches : List Switch
  /-- Whether the positional argument may begin with a hyphen, as a negative number does. -/
  hyphens : Bool
deriving DecidableEq, Repr

/-- Arguments sorted into positional ones and options with their values, in order. -/
structure Arguments where
  positional : List Text
  switches : List (Switch × Option Text)
deriving DecidableEq, Repr

namespace Arguments

/-- Adds a positional argument. -/
def addPositional (a : Arguments) (value : Text) : Arguments :=
  { a with positional := a.positional ++ [value] }

/-- Adds an option. -/
def addSwitch (a : Arguments) (s : Switch) (value : Option Text) : Arguments :=
  { a with switches := a.switches ++ [(s, value)] }

/-- How often an option was given. -/
def count (a : Arguments) (s : Switch) : Nat := (a.switches.filter fun (t, _) => t == s).length

/-- The value of an option, if it was given with one. -/
def valueOf? (a : Arguments) (s : Switch) : Option Text := (a.switches.lookup s).join

end Arguments

/-- What a single argument is. -/
inductive Piece
  /-- A positional argument or the value of the option before it. -/
  | value (text : Text)
  /-- Options that are complete, and perhaps a last one whose value comes next. -/
  | switches (complete : List (Switch × Option Text)) (pending : Option Switch)
  | invalid
deriving DecidableEq, Repr

/-- Splits at the first equals sign, if there is one. -/
def splitValue (text : Text) : Text × Option Text :=
  match text.dropWhile (· != '=') with
  | [] => (text, none)
  | _ :: value => (text.takeWhile (· != '='), some value)

/-- Drops one leading equals sign. -/
def withoutEquals : Text → Text
  | '=' :: value => value
  | value => value

namespace Grammar

/-- Whether a letter is the short name of an option. -/
def knows (g : Grammar) (c : Char) : Bool := g.switches.any fun s => s.short == c

/-- Reads letters behind one hyphen: flags, and perhaps at the end an option with a value, which may follow
directly or behind an equals sign. -/
def cluster (g : Grammar) : Text → List (Switch × Option Text) → Piece
  | [], complete => .switches complete none
  | c :: rest, complete =>
    match g.switches.find? fun s => s.short == c with
    | none => .invalid
    | some s =>
      if !s.takesValue then cluster g rest (complete ++ [(s, none)])
      else if rest.isEmpty then .switches complete (some s)
      else .switches (complete ++ [(s, some (withoutEquals rest))]) none

/-- Reads a long option; `first` says that the positional argument has not come yet. -/
def long (g : Grammar) (first : Bool) (argument body : Text) : Piece :=
  let (name, value) := splitValue body
  match g.switches.find? fun s => s.long == name, value with
  | none, _ => if g.hyphens && first then .value argument else .invalid
  | some s, some v => if s.takesValue then .switches [(s, some v)] none else .invalid
  | some s, none => if s.takesValue then .switches [] (some s) else .switches [(s, none)] none

/-- Reads one argument that does not stand behind `--`. A single hyphen is a value. Behind one hyphen, letters
that are not all options are a value where the positional argument may begin with a hyphen. -/
def piece (g : Grammar) (first : Bool) (argument : Text) : Piece :=
  match argument with
  | '-' :: '-' :: body => g.long first argument body
  | '-' :: c :: rest =>
    if g.hyphens && first && !(c :: rest).all g.knows then .value argument
    else g.cluster (c :: rest) []
  | _ => .value argument

/-- Reads the arguments of a subcommand. An option whose value comes next may be pending; after `--` all
arguments are positional. None if an argument is invalid or a value is missing. -/
def read (g : Grammar) : Option Switch → Arguments → List Text → Option Arguments
  | none, found, [] => some found
  | some _, _, [] => none
  | pending, found, argument :: rest =>
    if argument = ['-', '-'] then
      if pending.isSome then none else some { found with positional := found.positional ++ rest }
    else
      match g.piece found.positional.isEmpty argument, pending with
      | .value text, none => read g none (found.addPositional text) rest
      | .value text, some s => read g none (found.addSwitch s (some text)) rest
      | .switches complete next, none =>
        read g next (complete.foldl (fun found (s, value) => found.addSwitch s value) found) rest
      | .switches _ _, some _ => none
      | .invalid, _ => none

/-- The arguments of a subcommand, if no option is given twice. -/
def arguments? (g : Grammar) (rest : List Text) : Option Arguments := do
  let found ← g.read none ⟨[], []⟩ rest
  if g.switches.all fun s => found.count s ≤ 1 then some found else none

end Grammar

/-! ## Requests -/

/-- What the user asks for. -/
inductive Request
  | evaluate (expression : Text)
  | integer (expression : Text) (division : Division)
  | format (n : Number) (style : Text)
  | split (text separator : Text)
  | info
  | version
deriving DecidableEq, Repr

/-- The option for an integer value. -/
def integerSwitch : Switch := ⟨'i', "integer".toList, false⟩

/-- The option for the integer that a value becomes. -/
def divisionSwitch : Switch := ⟨'d', "division".toList, true⟩

/-- The option for the style of a numeral. -/
def styleSwitch : Switch := ⟨'s', "style".toList, true⟩

/-- The option for the separator. -/
def separatorSwitch : Switch := ⟨'s', "separator".toList, true⟩

/-- The values of the division option. -/
def divisions : List (Text × Division) :=
  [("rounded".toList, .rounded), ("truncated".toList, .truncated), ("real".toList, .real)]

/-- The request to evaluate an expression. -/
def evaluation? (rest : List Text) : Option Request := do
  let found ← Grammar.arguments? ⟨[integerSwitch, divisionSwitch], false⟩ rest
  let [expression] := found.positional | none
  let division ← divisions.lookup ((found.valueOf? divisionSwitch).getD "rounded".toList)
  if found.count integerSwitch = 0 then some (.evaluate expression) else some (.integer expression division)

/-- The request to format a number. -/
def formatting? (rest : List Text) : Option Request := do
  let found ← Grammar.arguments? ⟨[styleSwitch], true⟩ rest
  let [numeral] := found.positional | none
  let n ← Number.ofText? numeral
  let style := (found.valueOf? styleSwitch).getD "arabic".toList
  if (Numeral.Format.named.lookup style).isSome then some (.format n style) else none

/-- The request to split a text. -/
def splitting? (rest : List Text) : Option Request := do
  let found ← Grammar.arguments? ⟨[separatorSwitch], false⟩ rest
  let [text] := found.positional | none
  some (.split text ((found.valueOf? separatorSwitch).getD ",".toList))

/-- The request for information, which has no arguments. -/
def information? (rest : List Text) : Option Request := do
  let found ← Grammar.arguments? ⟨[], false⟩ rest
  if found.positional.isEmpty then some .info else none

/-- What the arguments ask for. -/
def request? : List Text → Option Request
  | [] => none
  | word :: rest =>
    if word = "eval".toList then evaluation? rest
    else if word = "format".toList then formatting? rest
    else if word = "split".toList then splitting? rest
    else if word = "info".toList then information? rest
    else if word = "-V".toList ∨ word = "--version".toList then some .version
    else none

/-! ## Answers -/

/-- What the program does in the end. -/
structure Answer where
  status : Nat
  output : Text
  errors : Text
deriving DecidableEq, Repr

/-- Lines, each with a line feed at its end. -/
def lines (ls : List Text) : Text := ls.flatMap fun l => l ++ ['\n']

/-- The version of the program. -/
def version : Text := "0.1.0".toList

/-- The name of the program. -/
def programName : Text := "texstate".toList

/-- The lines about the program and its commands. -/
def infoLines : List Text :=
  [programName ++ " - LaTeX counter, flag and list state".toList, "Version: ".toList ++ version, [],
    "Supported commands:".toList] ++
  Command.names.map (fun name => "  \\".toList ++ name) ++
  [[], "Dynamic commands:".toList, "  \\the<counter>".toList,
    "  list parsers declared with \\DeclareListParser".toList]

/-- The output lines of a request. -/
def Request.lines [Memory] : Request → Except Error (List Text)
  | .evaluate expression => do return [Double.text (← Expression.value expression)]
  | .integer expression division => do return [(← Expression.integer division expression).text]
  | .format n style => do return [← Numeral.format n style]
  | .split text separator => Separated.items separator text
  | .info => .ok infoLines
  | .version => .ok [programName ++ ' ' :: CommandLine.version]

/-- Status 2 without output for arguments that make no sense, status 1 with a message for a request that
fails, and status 0 with the lines of the request else. -/
def answer [Memory] (args : List Text) : Answer :=
  match request? args with
  | none => ⟨2, [], []⟩
  | some request =>
    match request.lines with
    | .ok ls => ⟨0, lines ls, []⟩
    | .error e => ⟨1, [], lines ["error: ".toList ++ e.message]⟩

/-- The memory that the program runs with.  Nothing else in the library depends on it. -/
instance programMemory : Memory := .upTo 4294967296

end DocState.CommandLine
