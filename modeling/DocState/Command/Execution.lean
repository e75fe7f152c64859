import DocState.Argument.Scanner
import DocState.Command.Change
import DocState.Command.Report
import DocState.Command.Test

/-!
# Running commands by name

A name is first looked up among the built-in commands, then among the list parsers of the session, and is then
taken as `the` with the name of a counter.

* `Command.run`: a built-in command.
* `perform`: a command by name.
* `Session.run`: runs a command on a source of arguments.
* `Session.runText`: runs a command on a text.
-/

namespace DocState

variable {σ : Type} [ArgumentSupply σ]

/-- What a built-in command does and expands to. -/
def Command.run [Memory] : Command → Procedure σ Expansion
  | .counter c => do c.run; return .nothing
  | .flag space c => do c.run space; return .nothing
  | .list c => do c.run; return .nothing
  | .declareParser => do DocState.declareParser; return .nothing
  | .report r => r.run
  | .test t => t.run

/-- The counter that a name displays: what follows `the`. -/
def displayedCounter? : Text → Option Text
  | 't' :: 'h' :: 'e' :: counter => some counter
  | _ => none

open Procedure in
/-- Displays a counter with its prefixes, or fails if the name is not that of a displayed counter. -/
def display (name : Text) : Procedure σ Expansion := do
  let counters := (← session).counters
  match displayedCounter? name with
  | some counter =>
    if counters.contains counter then return .math (← ofExcept (counters.render counter))
    else fail (.unknownCommand (← caller))
  | none => fail (.unknownCommand (← caller))

open Procedure in
/-- Runs the command of a name. -/
def perform [Memory] (name : Text) : Procedure σ Expansion := do
  match Command.lookup? name with
  | some command => command.run
  | none =>
    match (← session).parser? name with
    | some parser => parser.run
    | none => display name

namespace Session

/-- Runs a command, given by its name without the backslash, on a source of arguments. The result comes with
the session and the source after it, also if it is an error. -/
def run [Memory] (s : Session) (name : Text) (source : σ) : Except Error Expansion × Situation σ :=
  (perform name).run ('\\' :: name) ⟨s, source⟩

/-- Runs a command on a text. What the command does not read is dropped. -/
def runText [Memory] (s : Session) (name text : Text) : Except Error Expansion × Session :=
  let (result, after) := s.run name (Scanner.mk text)
  (result, after.session)

end Session

end DocState
