import DocState.Command
import DocState.Command.Procedure
import DocState.Expansion

/-!
# Commands that take one of two branches

* `Test.holds`: reads what is tested and decides the condition.
* `Test.run`: reads both branches after that, whichever is taken.
-/

namespace DocState

variable {σ : Type} [ArgumentSupply σ]

open Procedure in
/-- Whether the condition of a test holds for the arguments that come next. -/
def Test.holds : Test → Procedure σ Bool
  | .flag space negate => do
    let flag ← name false
    let value ← ofExcept ((← session).flags.get space flag)
    return value != negate
  | .counterDefined => do
    let counter ← name false
    return (← session).counters.contains counter
  | .equalTexts => do
    let a ← argument
    let b ← argument
    return a == b
  | .empty trim negate => do
    let text ← argument
    return (if trim then text.trim else text).isEmpty != negate
  | .compare (some relation) => do
    let a ← integer
    let b ← integer
    return relation.holds a b
  | .compare none => do
    let a ← integer
    let symbol ← argument
    let b ← integer
    match Relation.ofSymbol? symbol with
    | some relation => return relation.holds a b
    | none => fail (.invalidRelation symbol)
  | .parity p => do
    let n ← integer
    return p.holds n
  | .inList => do
    let item ← argument
    let list ← name false
    ofExcept ((← session).lists.has list item)

open Procedure in
/-- The branches of a test, with the condition that chooses between them. -/
def Test.run (t : Test) : Procedure σ Expansion := do
  let condition ← t.holds
  let ifTrue ← argument
  let ifFalse ← argument
  return .branch condition ifTrue ifFalse

end DocState
