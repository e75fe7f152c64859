import DocState.Number

/-!
# Relations between numbers

* `Relation`, `Relation.ofSymbol?`, `Relation.holds`: the six comparisons and the symbols for them.
* `Parity`, `Parity.holds`: even and odd.
-/

namespace DocState

/-- A comparison of two numbers. -/
inductive Relation
  | equal
  | notEqual
  | less
  | greater
  | lessEqual
  | greaterEqual
deriving DecidableEq, Repr

namespace Relation

/-- The symbols of the relations. -/
def symbols : List (Text × Relation) :=
  [("=".toList, .equal), ("!=".toList, .notEqual), ("<".toList, .less), (">".toList, .greater),
    ("<=".toList, .lessEqual), (">=".toList, .greaterEqual)]

/-- The relation that a symbol denotes, with any blanks around the symbol. -/
def ofSymbol? (symbol : Text) : Option Relation := symbols.lookup symbol.trim

/-- Whether two numbers are in the relation. -/
def holds : Relation → Number → Number → Bool
  | .equal, a, b => a == b
  | .notEqual, a, b => a != b
  | .less, a, b => a < b
  | .greater, a, b => b < a
  | .lessEqual, a, b => a ≤ b
  | .greaterEqual, a, b => b ≤ a

end Relation

/-- Even or odd. -/
inductive Parity
  | even
  | odd
deriving DecidableEq, Repr

/-- Whether a number has the parity. -/
def Parity.holds : Parity → Number → Bool
  | .even, n => n.isEven
  | .odd, n => !n.isEven

end DocState
