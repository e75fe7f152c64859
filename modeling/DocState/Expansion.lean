import DocState.Number

/-!
# What commands expand to

* `Expansion`: the result of a command, for the host to typeset or to read again.
* `Expansion.ofNumeral`: letters as text, anything else as mathematics.
* `Expansion.taken?`, `Expansion.output`: the branch taken, and what goes back into the document.
-/

namespace DocState

/-- The result of a command. -/
inductive Expansion
  /-- The command only changed the state. -/
  | nothing
  | text (content : Text)
  | math (content : Text)
  | number (n : Number)
  /-- Source for the host to read again. -/
  | tokens (source : Text)
  | branch (condition : Bool) (ifTrue ifFalse : Text)
deriving DecidableEq, Repr

namespace Expansion

/-- A numeral: text if it has no character but ASCII letters, else mathematics. -/
def ofNumeral (numeral : Text) : Expansion :=
  if numeral.all Char.isAlpha then .text numeral else .math numeral

/-- The branch that was taken, if the command was a test. -/
def taken? : Expansion → Option Text
  | .branch condition ifTrue ifFalse => some (if condition then ifTrue else ifFalse)
  | _ => none

/-- What goes back into the document. -/
def output : Expansion → Text
  | .nothing => []
  | .text content | .math content => content
  | .number n => n.text
  | .tokens source => source
  | .branch condition ifTrue ifFalse => if condition then ifTrue else ifFalse

/-- The kind of an expansion. -/
def kind : Expansion → Text
  | .nothing => "nothing".toList
  | .text _ => "text".toList
  | .math _ => "math".toList
  | .number _ => "number".toList
  | .tokens _ => "tokens".toList
  | .branch _ _ _ => "branch".toList

end Expansion

end DocState
