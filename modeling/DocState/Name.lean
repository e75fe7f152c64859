import DocState.Error

/-!
# Control sequence names

The name of a counter, flag, list or list parser is what may follow the backslash of a control sequence: a
single character, or a run of letters.

* `Name.isValid`: the rule for names.
* `Name.spelled`: the name that an argument spells, unchecked.
* `Name.checked`: the same, refused unless it is valid.
-/

namespace DocState.Name

/-- The letters of names: those of ASCII, and the two other characters that differ from one of them in case
only, the long s and the Kelvin sign. -/
def isLetter (c : Char) : Bool := c.isAlpha || c == '\u017F' || c == '\u212A'

/-- A single character that is no line feed, or one or more letters. -/
def isValid : Text → Bool
  | [] => false
  | [c] => c != '\n'
  | name => name.all isLetter

/-- The name that an argument spells: without the blanks around it and without one leading backslash, which
has to be there if `marked`. -/
def spelled (command : Text) (marked : Bool) (raw : Text) : Except Error Text :=
  match raw.trim with
  | '\\' :: name => .ok name
  | name => if marked then .error (.missingControlSequence command) else .ok name

/-- The valid name that an argument spells. -/
def checked (command : Text) (marked : Bool) (raw : Text) : Except Error Text := do
  let name ← spelled command marked raw
  if isValid name then .ok name else .error (.illegalName command name)

end DocState.Name
