import DocState.Table
import DocState.Update

/-!
# The flags of a document

* `Flags`: bools and toggles, each true or false.
* `Flags.create`, `Flags.get`, `Flags.set`: a new flag is false; only a created flag can be read or set.
* `Flags.inSpace`: the flags of one namespace, in order of creation.
* `Flags.value`: the value that the text of an argument denotes.
-/

namespace DocState

/-- The flags of both namespaces. -/
structure Flags where
  table : Table (FlagSpace × Text) Bool
deriving DecidableEq, Repr

namespace Flags

/-- No flags. -/
def empty : Flags := ⟨.empty⟩

instance : Inhabited Flags := ⟨empty⟩

/-- Whether a flag is there. -/
def contains (fs : Flags) (space : FlagSpace) (name : Text) : Bool := fs.table.contains (space, name)

/-- The number of flags in both namespaces. -/
def size (fs : Flags) : Nat := fs.table.size

/-- Creates a flag that is false. A flag that is there already is an error if `strict`, and else stays as
it is. -/
def create (space : FlagSpace) (name : Text) (strict : Bool) : Update Flags Unit := do
  if (← getThe Flags).contains space name then
    if strict then throw (.duplicateFlag space name)
  else
    modifyThe Flags fun fs => ⟨fs.table.insert (space, name) false⟩

/-- The value of a flag. -/
def get (fs : Flags) (space : FlagSpace) (name : Text) : Except Error Bool :=
  match fs.table.get? (space, name) with
  | some value => .ok value
  | none => .error (.undefinedFlag space name)

/-- Gives a flag a value. -/
def set (space : FlagSpace) (name : Text) (value : Bool) : Update Flags Unit := do
  if (← getThe Flags).contains space name then
    modifyThe Flags fun fs => ⟨fs.table.insert (space, name) value⟩
  else
    throw (.undefinedFlag space name)

/-- Names and values of the flags of one namespace, the oldest first. -/
def inSpace (fs : Flags) (space : FlagSpace) : List (Text × Bool) :=
  fs.table.entries.filterMap fun ((s, name), value) => if s = space then some (name, value) else none

/-- The value that `true` and `false` denote. No other text denotes one. -/
def value (text : Text) : Except Error Bool :=
  if text = "true".toList then .ok true
  else if text = "false".toList then .ok false
  else .error (.invalidFlagValue text)

end Flags

end DocState
