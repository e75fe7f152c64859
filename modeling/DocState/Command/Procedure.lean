import DocState.Argument.Supply
import DocState.Session

/-!
# Procedures: what a command does step by step

A command reads arguments, looks at the session, changes it, and may fail at any step. What it has read and
changed until then stays read and changed.

* `Situation`: a session and the source of the arguments.
* `Procedure`: from the calling command and a situation to a result and the situation after it.
* `Procedure.argument`, `Procedure.optional`, `Procedure.star`: reading.
* `Procedure.changeCounters`, `Procedure.changeFlags`, `Procedure.changeLists`, `Procedure.declare`: changing.
* `Procedure.name`, `Procedure.counter`, `Procedure.integer`, `Procedure.number`: arguments of a certain kind.
-/

namespace DocState

/-- A session, and where the arguments of its next command come from. -/
structure Situation (σ : Type) where
  session : Session
  source : σ

/-- A step of a command, which the first argument names with its backslash. -/
structure Procedure (σ α : Type) where
  run : Text → Situation σ → Except Error α × Situation σ

namespace Procedure

variable {σ α β : Type}

/-- Answers without doing anything. -/
protected def pure (a : α) : Procedure σ α := ⟨fun _ s => (.ok a, s)⟩

/-- One procedure after the other, unless the first fails. -/
protected def bind (x : Procedure σ α) (f : α → Procedure σ β) : Procedure σ β :=
  ⟨fun command s =>
    match x.run command s with
    | (.ok a, s') => (f a).run command s'
    | (.error e, s') => (.error e, s')⟩

instance : Monad (Procedure σ) where
  pure := Procedure.pure
  bind := Procedure.bind

@[simp] theorem run_pure (a : α) (command : Text) (s : Situation σ) :
    (Pure.pure a : Procedure σ α).run command s = (.ok a, s) := rfl

theorem run_bind (x : Procedure σ α) (f : α → Procedure σ β) (command : Text) (s : Situation σ) :
    (x >>= f).run command s =
      match x.run command s with
      | (.ok a, s') => (f a).run command s'
      | (.error e, s') => (.error e, s') := rfl

/-- A result that is known without reading or changing anything. -/
def ofExcept (x : Except Error α) : Procedure σ α := ⟨fun _ s => (x, s)⟩

/-- Fails. -/
def fail (e : Error) : Procedure σ α := ofExcept (.error e)

/-- The calling command with its backslash. -/
def caller : Procedure σ Text := ⟨fun command s => (.ok command, s)⟩

/-- The session as it is now. -/
def session : Procedure σ Session := ⟨fun _ s => (.ok s.session, s)⟩

/-! ## Reading -/

section Reading

variable [ArgumentSupply σ]

/-- Reads a mandatory argument. -/
def argument : Procedure σ Text :=
  ⟨fun command s =>
    let (result, source) := ArgumentSupply.mandatory command s.source
    (result, { s with source })⟩

/-- Reads an optional argument. -/
def optional (fallback : Text) : Procedure σ Text :=
  ⟨fun command s =>
    let (result, source) := ArgumentSupply.optional command fallback s.source
    (result, { s with source })⟩

/-- Reads a star if there is one. -/
def star : Procedure σ Bool :=
  ⟨fun _ s =>
    let (found, source) := ArgumentSupply.star s.source
    (.ok found, { s with source })⟩

end Reading

/-! ## Changing -/

/-- Runs an update on a part of the session. What the update has changed when it is refused stays changed. -/
def update {τ : Type} (part : Session → τ) (put : Session → τ → Session) (u : Update τ α) : Procedure σ α :=
  ⟨fun _ s =>
    let (result, after) := u.outcome (part s.session)
    (result, { s with session := put s.session after })⟩

/-- Changes the counters. -/
def changeCounters (u : Update Counters α) : Procedure σ α :=
  update (·.counters) (fun s counters => { s with counters }) u

/-- Changes the flags. -/
def changeFlags (u : Update Flags α) : Procedure σ α :=
  update (·.flags) (fun s flags => { s with flags }) u

/-- Changes the lists. -/
def changeLists (u : Update Lists α) : Procedure σ α :=
  update (·.lists) (fun s lists => { s with lists }) u

/-- Declares a list parser. -/
def declare (name : Text) (parser : ListParser) : Procedure σ Unit :=
  ⟨fun _ s => (.ok (), { s with session := s.session.declare name parser })⟩

/-! ## Arguments of a certain kind -/

/-- The name that an argument spells; `marked` if it needs a backslash. -/
def nameOf (marked : Bool) (raw : Text) : Procedure σ Text := do
  ofExcept ((← session).name (← caller) marked raw)

variable [ArgumentSupply σ]

/-- Reads a name; `marked` if it needs a backslash. -/
def name (marked : Bool) : Procedure σ Text := do
  nameOf marked (← argument)

/-- Reads the name of a counter that is there. The name is taken as it is but for the blanks around it. -/
def counter : Procedure σ Text := do
  let raw ← argument
  let _ ← ofExcept ((← session).counters.place raw.trim)
  return raw.trim

/-- Reads an expression and gives its value as a number. -/
def integer : Procedure σ Number := do
  let text ← argument
  ofExcept ((← session).integer text)

/-- Reads an argument and gives the number at its start. -/
def number : Procedure σ Number := do
  ofExcept (Number.leading (← argument))

end Procedure

end DocState
