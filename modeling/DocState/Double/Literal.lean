import DocState.Decimal

/-!
# Reading decimal literals as doubles

`Double.ofLiteral?` reads digits with at most one point among them, such as `12`, `1.5`, `.5` and `5.`; there
is no sign, exponent or other mark. The double is the one nearest to the decimal number, and a literal beyond
the greatest finite double is refused.
-/

namespace DocState.Double

/-- The double nearest to `m / 10 ^ places`, ties to the even mantissa. -/
def ofDecimal (m places : Nat) : Float := Float.ofModel (Float.Model.ofScientific m (-(places : Int)))

/-- The finite double that a literal denotes. -/
def ofLiteral? (literal : Text) : Option Float :=
  let whole := literal.takeWhile (· != '.')
  let fraction := (literal.dropWhile (· != '.')).drop 1
  let x := ofDecimal (Decimal.value (whole ++ fraction)) fraction.length
  if Decimal.isRun (whole ++ fraction) && x.isFinite then some x else none

end DocState.Double
