import DocState.Command
import DocState.Command.Procedure
import DocState.Expansion

/-!
# Commands that report

* `handed`: the source that hands items to a handler.
* `Report.run`: the reporting commands.
* `ListParser.run`: the command that a declared list parser is.
-/

namespace DocState

/-- Calls a handler for each item, as in `\do{a}\do{b}`. -/
def handed (handler : Text) (items : List Text) : Text :=
  items.flatMap fun item => '\\' :: handler ++ '{' :: item ++ ['}']

/-- The handler that is called if no other one is given. -/
def standardHandler : Text := "do".toList

variable {σ : Type} [ArgumentSupply σ]

open Procedure in
/-- What a reporting command expands to. -/
def Report.run [Memory] : Report → Procedure σ Expansion
  | .format f => do
    let name ← counter
    let value ← ofExcept ((← session).counters.value name)
    let numeral ← ofExcept (f.apply value)
    return .ofNumeral numeral
  | .value => do
    let name ← counter
    let value ← ofExcept ((← session).counters.value name)
    return .number value
  | .number => do
    let n ← Procedure.number
    return .math n.text
  | .romanNumeral => do
    let n ← Procedure.number
    let numeral ← ofExcept (Numeral.Format.apply ⟨.roman, false⟩ n)
    return .text numeral
  | .loop => do
    let list ← name false
    let items ← ofExcept ((← session).lists.get list)
    return .tokens (handed standardHandler items)
  | .loopWith => do
    let handler ← name true
    let list ← name false
    let items ← ofExcept ((← session).lists.get list)
    return .tokens (handed handler items)

open Procedure in
/-- Splits an argument and hands on its items. -/
def ListParser.run (p : ListParser) : Procedure σ Expansion := do
  let handler ← if p.readsHandler then name true else pure standardHandler
  let text ← argument
  let items ← ofExcept (Separated.items p.separator text)
  return .tokens (handed handler items)

end DocState
