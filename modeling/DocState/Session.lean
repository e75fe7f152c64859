import DocState.Counters
import DocState.Expression.Integer
import DocState.Flags
import DocState.Lists
import DocState.Name

/-!
# Sessions

* `Session`: the counters, flags, lists and list parsers of one document, with the options for reading them.
* `Session.name`, `Session.integer`: names and expressions as the options want them.
* `Session.declare`: adds a list parser.
* `Session.reset`: the session for the next document, with the same options.
-/

namespace DocState

/-- The options of a session. -/
structure Options where
  /-- Whether names have to be valid control sequence names. -/
  checkNames : Bool
  /-- How the values of expressions become integers. -/
  division : Division
deriving DecidableEq, Repr

namespace Options

/-- Checked names, and rounded values. -/
def standard : Options := ⟨true, .rounded⟩

/-- Any names, and rounded values. -/
def unchecked : Options := ⟨false, .rounded⟩

instance : Inhabited Options := ⟨standard⟩

end Options

/-- A declared command that splits its argument and hands on the items. -/
structure ListParser where
  separator : Text
  /-- Whether a handler is read before the text; else the items go to `do`. -/
  readsHandler : Bool
deriving DecidableEq, Repr

/-- The state of one document. -/
structure Session where
  counters : Counters
  flags : Flags
  lists : Lists
  parsers : Table Text ListParser
  options : Options
deriving DecidableEq, Repr

namespace Session

/-- The session of a document that has not begun. -/
def fresh (options : Options) : Session := ⟨.empty, .empty, .empty, .empty, options⟩

instance : Inhabited Session := ⟨fresh .standard⟩

/-- A fresh session with the same options. -/
def reset (s : Session) : Session := fresh s.options

/-- The name that an argument of a command spells. -/
def name (s : Session) (command : Text) (marked : Bool) (raw : Text) : Except Error Text :=
  if s.options.checkNames then Name.checked command marked raw else Name.spelled command marked raw

/-- The value of an expression as a number. -/
def integer (s : Session) (text : Text) : Except Error Number :=
  Expression.integer s.options.division text

/-- Declares a list parser. A parser of the same name is replaced. -/
def declare (s : Session) (name : Text) (parser : ListParser) : Session :=
  { s with parsers := s.parsers.insert name parser }

/-- The list parser of a name. -/
def parser? (s : Session) (name : Text) : Option ListParser := s.parsers.get? name

end Session

end DocState
