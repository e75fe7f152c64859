import DocState.Double.Shortest
import DocState.Expression.Token

/-!
# Postfix order

Every operation stands behind its operands, so that no parentheses are needed. Multiplication and division
bind more tightly than addition and subtraction, the unary minus binds most tightly, and operations with two
operands group to the left.

* `Postfix.ofText`: an expression in postfix order; parentheses have to match.
* `Postfix.text`: its items with spaces between them.
* `Postfix.value`: its value in double arithmetic.
-/

namespace DocState.Expression

namespace Operator

/-- How tightly an operation binds. -/
def rank : Operator → Nat
  | .binary .add | .binary .sub => 1
  | .binary .mul | .binary .div => 2
  | .negate => 3

/-- Whether a pending operation takes its operands before `incoming` is put on top of it: if it binds more
tightly, or equally and the two group to the left. -/
def precedes (pending incoming : Operator) : Bool :=
  incoming.rank < pending.rank || (incoming.rank == pending.rank && incoming != .negate)

/-- The text of an operation in a postfix expression. -/
def text : Operator → Text
  | .binary .add => ['+']
  | .binary .sub => ['-']
  | .binary .mul => ['*']
  | .binary .div => ['/']
  | .negate => "neg".toList

end Operator

/-- The result of an operation with two operands. -/
def BinaryOp.apply : BinaryOp → Float → Float → Float
  | .add, a, b => a + b
  | .sub, a, b => a - b
  | .mul, a, b => a * b
  | .div, a, b => a / b

/-- A part of a postfix expression. -/
inductive Item
  | number (x : Float)
  | operator (op : Operator)
deriving DecidableEq

/-- The text of an item. -/
def Item.text : Item → Text
  | .number x => Double.text x
  | .operator op => op.text

/-- An operation that waits for its second operand, or a parenthesis that waits for its partner. -/
inductive Pending
  | operator (op : Operator)
  | opening
deriving DecidableEq, Repr

namespace Pending

/-- The operations that leave the stack before `incoming` comes on top of it, and what stays. -/
def takeBefore (incoming : Operator) : List Pending → List Item × List Pending
  | .operator op :: below =>
    if op.precedes incoming then
      let (out, rest) := takeBefore incoming below
      (.operator op :: out, rest)
    else ([], .operator op :: below)
  | stack => ([], stack)

/-- The operations down to the nearest opening parenthesis, and what lies below it. -/
def takeGroup? : List Pending → Option (List Item × List Pending)
  | [] => none
  | .opening :: below => some ([], below)
  | .operator op :: below => (takeGroup? below).map fun (out, rest) => (.operator op :: out, rest)

/-- All operations, if no parenthesis is open. -/
def takeAll? : List Pending → Option (List Item)
  | [] => some []
  | .opening :: _ => none
  | .operator op :: below => (takeAll? below).map (.operator op :: ·)

end Pending

/-- The items of tokens, above a stack of what is pending; none if the parentheses do not match. -/
def arrange : List Pending → List Token → Option (List Item)
  | stack, [] => Pending.takeAll? stack
  | stack, .number x :: rest => (arrange stack rest).map (.number x :: ·)
  | stack, .operator op :: rest =>
    let (out, kept) := Pending.takeBefore op stack
    (arrange (.operator op :: kept) rest).map (out ++ ·)
  | stack, .opening :: rest => arrange (.opening :: stack) rest
  | stack, .closing :: rest =>
    (Pending.takeGroup? stack).bind fun (out, kept) => (arrange kept rest).map (out ++ ·)

/-- The stack after the items were read from left to right: a number goes on top, and an operation replaces
its operands by its result. None if an operand is missing. -/
def runItems : List Item → List Float → Option (List Float)
  | [], stack => some stack
  | .number x :: rest, stack => runItems rest (x :: stack)
  | .operator .negate :: rest, x :: stack => runItems rest (-x :: stack)
  | .operator (.binary op) :: rest, b :: a :: stack => runItems rest (op.apply a b :: stack)
  | .operator _ :: _, _ => none

/-- An expression in postfix order, with the text that it was read from. -/
structure Postfix where
  source : Text
  items : List Item
deriving DecidableEq

namespace Postfix

/-- A text in postfix order. -/
def ofText (text : Text) : Except Error Postfix := do
  match arrange [] (← tokens text) with
  | some items => .ok ⟨text, items⟩
  | none => .error (.mismatchedParentheses text)

/-- The items with a space between any two. -/
def text (p : Postfix) : Text := [' '].intercalate (p.items.map Item.text)

/-- The value of an expression, which has to leave exactly one number. -/
def value (p : Postfix) : Except Error Float :=
  match runItems p.items [] with
  | some [x] => .ok x
  | _ => .error (.invalidExpression p.source)

end Postfix

end DocState.Expression
