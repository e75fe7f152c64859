import DocState.Expression.Postfix
import DocState.Number

/-!
# Values of expressions

* `Expression.value`: the value of a text in double arithmetic.
* `Division`: how a value that is no integer becomes one.
* `Expression.integer`: the value of a text as a number.
-/

namespace DocState

/-- How the value of an expression becomes an integer. -/
inductive Division
  /-- To the nearest integer, from halfway to the one farther from zero. -/
  | rounded
  /-- Toward zero. -/
  | truncated
  /-- Not at all: the value has to be an integer. -/
  | real
deriving DecidableEq, Repr

/-- The integer that a rational number becomes. -/
def Division.integer? : Division → Rat → Option Int
  | .rounded, v => some (Double.nearest v)
  | .truncated, v => some (Double.towardZero v)
  | .real, v => if v.den = 1 then some v.num else none

namespace Expression

/-- The value of an expression. -/
def value (text : Text) : Except Error Float := do
  (← Postfix.ofText text).value

/-- The value of an expression as a number. It is refused if it is infinite or no number, if the mode wants an
integer that it is not, or if it is out of range. -/
def integer (division : Division) (text : Text) : Except Error Number := do
  let x ← value text
  match ((Double.value? x).bind division.integer?).bind Number.ofInt? with
  | some n => .ok n
  | none => .error (.invalidNumber text)

end Expression

end DocState
