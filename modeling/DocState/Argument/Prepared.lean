import DocState.Argument.Supply

/-!
# Arguments that a host has split already

A `Prepared` source hands out the elements of a list in order. An element may be absent: it stands where an
optional argument could be and is none.
-/

namespace DocState

/-- Arguments in order, some of them absent, and how many of them have been read. -/
structure Prepared where
  arguments : List (Option Text)
  position : Nat
deriving DecidableEq, Repr

namespace Prepared

/-- The arguments that are all there, with none of them read. -/
def ofList (arguments : List Text) : Prepared := ⟨arguments.map some, 0⟩

/-- The element at the position, if the list is not at its end. -/
def next? (p : Prepared) : Option (Option Text) := p.arguments[p.position]?

/-- The source with one more element read. -/
def advance (p : Prepared) : Prepared := { p with position := p.position + 1 }

/-- Reads the next element; an absent one is the empty argument. -/
def mandatory (command : Text) (p : Prepared) : Except Error Text × Prepared :=
  match p.next? with
  | some element => (.ok (element.getD []), p.advance)
  | none => (.error (.missingArgument command), p)

/-- Reads the next element, for which `fallback` stands in if it is absent or the list is at its end. -/
def optional (_command fallback : Text) (p : Prepared) : Except Error Text × Prepared :=
  (.ok ((p.next?.bind id).getD fallback), p.advance)

/-- Reads the next element if it is a star. -/
def star (p : Prepared) : Bool × Prepared :=
  if p.next? = some (some ['*']) then (true, p.advance) else (false, p)

instance : ArgumentSupply Prepared := ⟨mandatory, optional, star⟩

end Prepared

end DocState
