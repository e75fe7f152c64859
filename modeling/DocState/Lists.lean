import DocState.Separated
import DocState.Table
import DocState.Update

/-!
# The lists of a document

* `Lists`: named lists of items. Items keep their order and may repeat; the empty item is never stored.
* `Lists.create`, `Lists.get`: only a created list can be used.
* `Lists.add`, `Lists.addSeparated`, `Lists.remove`, `Lists.has`: the items of one list.
-/

namespace DocState

/-- The lists by name. -/
structure Lists where
  table : Table Text (List Text)
deriving DecidableEq, Repr

namespace Lists

/-- No lists. -/
def empty : Lists := ⟨.empty⟩

instance : Inhabited Lists := ⟨empty⟩

/-- Whether a list is there. -/
def contains (ls : Lists) (name : Text) : Bool := ls.table.contains name

/-- The number of lists. -/
def size (ls : Lists) : Nat := ls.table.size

/-- Creates an empty list. A list that is there already is an error if `strict`, and else stays as it is. -/
def create (name : Text) (strict : Bool) : Update Lists Unit := do
  if (← getThe Lists).contains name then
    if strict then throw (.duplicateList name)
  else
    modifyThe Lists fun ls => ⟨ls.table.insert name []⟩

/-- The items of a list. -/
def get (ls : Lists) (name : Text) : Except Error (List Text) :=
  match ls.table.get? name with
  | some items => .ok items
  | none => .error (.undefinedList name)

/-- Changes the items of a list. -/
def change (name : Text) (f : List Text → List Text) : Update Lists Unit := do
  if (← getThe Lists).contains name then
    modifyThe Lists fun ls => ⟨ls.table.modify name f⟩
  else
    throw (.undefinedList name)

/-- Appends an item to a list, unless it is empty. -/
def add (name item : Text) : Update Lists Unit :=
  change name fun items => if item.isEmpty then items else items ++ [item]

/-- Appends the items of a separated text to a list, but not the empty ones. A text whose braces do not match
is refused before the list is looked up. -/
def addSeparated (name text separator : Text) : Update Lists Unit := do
  let found ← Update.ofExcept (Separated.items separator text)
  change name fun items => items ++ found.filter fun item => !item.isEmpty

/-- Removes the first item of a list that equals `item`, if there is one. -/
def remove (name item : Text) : Update Lists Unit :=
  change name fun items => items.erase item

/-- Whether a list has an item. -/
def has (ls : Lists) (name item : Text) : Except Error Bool := do
  let items ← ls.get name
  return items.contains item

end Lists

end DocState
