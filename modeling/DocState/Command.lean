import DocState.Numeral
import DocState.Relation

/-!
# The built-in commands

The commands are sorted by what they do: some change the counters, a flag or a list, one declares a list
parser, some report without a change, and some take one of two branches.

* `Command`: the commands with their fixed parameters.
* `Command.named`, `Command.lookup?`: the commands by name; several names may stand for one command.
* `Command.names`: all names in alphabetical order, capitals first.
-/

namespace DocState

/-- Commands that change the counters. -/
inductive CounterCommand
  /-- Creates a counter, perhaps below another one. -/
  | new
  /-- Gives a counter the number at the start of an argument. -/
  | set
  | add
  | step
  /-- Gives a counter the value of an expression. -/
  | define
  | within
  | without
deriving DecidableEq, Repr

/-- Commands that change a flag. -/
inductive FlagCommand
  /-- Creates a flag; `strict` if it must not be there already. -/
  | new (strict : Bool)
  /-- Gives a flag a fixed value, or else the value of a further argument. -/
  | set (value : Option Bool)
deriving DecidableEq, Repr

/-- Commands that change a list. -/
inductive ListCommand
  | add
  | remove
deriving DecidableEq, Repr

/-- Commands that expand to something and change nothing. -/
inductive Report
  | format (f : Numeral.Format)
  | value
  | number
  | romanNumeral
  /-- Hands the items of a list to `do`. -/
  | loop
  /-- Hands the items of a list to a handler that is read first. -/
  | loopWith
deriving DecidableEq, Repr

/-- Conditions of the commands that take one of two branches. -/
inductive Test
  | flag (space : FlagSpace) (negate : Bool)
  | counterDefined
  | equalTexts
  /-- Whether an argument is empty, without its outer blanks if `trim`. -/
  | empty (trim negate : Bool)
  /-- A fixed relation, or else the one whose symbol stands between the two numbers. -/
  | compare (relation : Option Relation)
  | parity (p : Parity)
  | inList
deriving DecidableEq, Repr

/-- A built-in command. -/
inductive Command
  | counter (c : CounterCommand)
  | flag (space : FlagSpace) (c : FlagCommand)
  | list (c : ListCommand)
  | declareParser
  | report (r : Report)
  | test (t : Test)
deriving DecidableEq, Repr

namespace Command

/-- The commands of the counters. -/
def ofCounters : List (Text × Command) :=
  [("newcounter".toList, .counter .new), ("setcounter".toList, .counter .set),
    ("stepcounter".toList, .counter .step), ("addtocounter".toList, .counter .add),
    ("defcounter".toList, .counter .define), ("counterwithin".toList, .counter .within),
    ("counterwithout".toList, .counter .without), ("value".toList, .report .value),
    ("ifdefcounter".toList, .test .counterDefined), ("ifcscounter".toList, .test .counterDefined),
    ("ifltxcounter".toList, .test .counterDefined)]

/-- The commands of the numerals. -/
def ofNumerals : List (Text × Command) :=
  Numeral.Format.named.map (fun (name, f) => (name, .report (.format f))) ++
    [("number".toList, .report .number), ("romannumeral".toList, .report .romanNumeral)]

/-- The commands of the flags of one namespace. -/
def ofFlags (space : FlagSpace) : List (Text × Command) :=
  [("new".toList ++ space.text, .flag space (.new true)),
    ("provide".toList ++ space.text, .flag space (.new false)),
    ("set".toList ++ space.text, .flag space (.set none)),
    (space.text ++ "true".toList, .flag space (.set (some true))),
    (space.text ++ "false".toList, .flag space (.set (some false))),
    ("if".toList ++ space.text, .test (.flag space false)),
    ("not".toList ++ space.text, .test (.flag space true))]

/-- The tests of texts and numbers. -/
def ofTests : List (Text × Command) :=
  [("ifstrequal".toList, .test .equalTexts), ("ifstrempty".toList, .test (.empty false false)),
    ("ifblank".toList, .test (.empty true false)), ("notblank".toList, .test (.empty true true)),
    ("ifnumcomp".toList, .test (.compare none)), ("ifnumequal".toList, .test (.compare (some .equal))),
    ("ifnumneq".toList, .test (.compare (some .notEqual))),
    ("ifnumless".toList, .test (.compare (some .less))),
    ("ifnumgreater".toList, .test (.compare (some .greater))),
    ("ifnumleq".toList, .test (.compare (some .lessEqual))),
    ("ifnumgeq".toList, .test (.compare (some .greaterEqual))), ("ifnumeven".toList, .test (.parity .even)),
    ("ifnumodd".toList, .test (.parity .odd))]

/-- The commands of the lists. -/
def ofLists : List (Text × Command) :=
  [("listadd".toList, .list .add), ("listremove".toList, .list .remove), ("ifinlist".toList, .test .inList),
    ("dolistloop".toList, .report .loop), ("forlistloop".toList, .report .loopWith),
    ("DeclareListParser".toList, .declareParser)]

/-- All commands by name. -/
def named : List (Text × Command) :=
  ofCounters ++ ofNumerals ++ ofFlags .bool ++ ofFlags .toggle ++ ofTests ++ ofLists

/-- The command of a name. Capitals and small letters differ. -/
def lookup? (name : Text) : Option Command := named.lookup name

/-- Whether a text comes no later than another one in the order of character codes. -/
def alphabetical : Text → Text → Bool
  | [], _ => true
  | _ :: _, [] => false
  | a :: s, b :: t => a.toNat < b.toNat || (a == b && alphabetical s t)

/-- The names of all commands in alphabetical order. -/
def names : List Text := (named.map (·.1)).mergeSort alphabetical

end Command

end DocState
