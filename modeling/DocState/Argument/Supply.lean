import DocState.Error

/-!
# Where commands read their arguments

A command reads its arguments one after the other and says which command it is, for the error messages. An
`ArgumentSupply` is a state from which arguments can be read: each reading answers and leaves the state after
it, also when it fails.
-/

namespace DocState

/-- States from which a command reads its arguments. -/
class ArgumentSupply (σ : Type) where
  /-- The next mandatory argument. -/
  mandatory (command : Text) : σ → Except Error Text × σ
  /-- The optional argument if it comes next, else `fallback`. -/
  optional (command fallback : Text) : σ → Except Error Text × σ
  /-- Whether a star comes next, which is then read. -/
  star : σ → Bool × σ

end DocState
