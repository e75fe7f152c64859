import DocState.Command
import DocState.Command.Procedure

/-!
# Commands that change the session

* `CounterCommand.run`, `FlagCommand.run`, `ListCommand.run`: the changes of counters, of a flag, of a list.
* `declareParser`: the declaration of a list parser.

All arguments are read before anything is changed.
-/

namespace DocState

variable {σ : Type} [ArgumentSupply σ]

open Procedure in
/-- Changes the counters. -/
def CounterCommand.run : CounterCommand → Procedure σ Unit
  | .new => do
    let raw ← argument
    if raw.trim = ['['] then fail (.invalidArgumentOrder (← caller))
    let name ← nameOf false raw
    let above ← optional []
    let parent ← if above.trim.isEmpty then pure none else some <$> nameOf false above
    discard (changeCounters (Counters.create name parent 0))
  | .set => do
    let name ← counter
    let value ← number
    changeCounters (Counters.set name value)
  | .add => do
    let name ← counter
    let delta ← number
    changeCounters (Counters.add name delta)
  | .step => do
    let name ← counter
    changeCounters (Counters.step name)
  | .define => do
    let name ← counter
    let value ← integer
    changeCounters (Counters.set name value)
  | .within => do
    let starred ← star
    let name ← counter
    let above ← counter
    changeCounters (Counters.attach name above (!starred))
  | .without => do
    let name ← counter
    let above ← counter
    changeCounters (Counters.detach name above)

open Procedure in
/-- Changes a flag of a namespace. -/
def FlagCommand.run (space : FlagSpace) : FlagCommand → Procedure σ Unit
  | .new strict => do
    let flag ← name false
    changeFlags (Flags.create space flag strict)
  | .set (some value) => do
    let flag ← name false
    changeFlags (Flags.set space flag value)
  | .set none => do
    let flag ← name false
    let value ← ofExcept (Flags.value (← argument).trim)
    changeFlags (Flags.set space flag value)

open Procedure in
/-- Changes a list. A list that is not there is created when an item is added. -/
def ListCommand.run : ListCommand → Procedure σ Unit
  | .add => do
    let list ← name false
    let item ← argument
    changeLists (Lists.create list false)
    changeLists (Lists.add list item)
  | .remove => do
    let list ← name false
    let item ← argument
    changeLists (Lists.remove list item)

open Procedure in
/-- Declares a list parser; with a star it will read a handler. -/
def declareParser : Procedure σ Unit := do
  let readsHandler ← star
  let parser ← name true
  let separator ← argument
  declare parser ⟨separator, readsHandler⟩

end DocState
