import DocState.Decimal
import DocState.Double.Exact

/-!
# The shortest decimal text of a double

A finite double is written with the fewest significant digits that read back to it, and of these with the
digits nearest to it; the digits are written positionally, without an exponent and without a fraction that
would be zero.

* `Double.Interval`: the numbers that read back to a double.
* `Double.shortest`: the chosen decimal `digits * 10 ^ exponent`.
* `Double.text`: the text of any double.
-/

namespace DocState.Double

/-- A positive double together with the numbers that round to it: those between `low` and `high`, and these
two themselves if `closed`. -/
structure Interval where
  low : Rat
  center : Rat
  high : Rat
  closed : Bool

namespace Interval

/-- The least exponent of a double. -/
def leastExponent : Int := -1074

/-- The least mantissa of a double that is not subnormal, `2 ^ 52`. -/
def leastNormal : Nat := 4503599627370496

/-- The interval of the double `mantissa * 2 ^ exponent`. It reaches halfway to both neighbours, of which the
lower one is nearer when the mantissa is the least one. Its ends round to an even mantissa. -/
def ofParts (mantissa : Nat) (exponent : Int) : Interval :=
  let quarter := scaled 1 (exponent - 2)
  let below : Rat := if mantissa == leastNormal && exponent != leastExponent then quarter else 2 * quarter
  { low := scaled mantissa exponent - below
    center := scaled mantissa exponent
    high := scaled mantissa exponent + 2 * quarter
    closed := mantissa % 2 == 0 }

/-- Whether a number rounds to the double. -/
def contains (i : Interval) (x : Rat) : Bool :=
  (decide (i.low < x) && decide (x < i.high)) || (i.closed && (x == i.low || x == i.high))

/-- The multiple of `step` that rounds to the double and is nearest to it, counted in steps. A tie goes up. -/
def multiple? (i : Interval) (step : Rat) : Option Nat :=
  let down := (i.center / step).floor
  let holdsDown := i.contains (down * step)
  let holdsUp := i.contains ((down + 1) * step)
  if holdsUp && (!holdsDown || decide ((down + 1) * step - i.center ≤ i.center - down * step)) then
    some (down + 1).toNat
  else if holdsDown then some down.toNat
  else none

/-- The first of the powers of ten from `10 ^ exponent` downward with a multiple in the interval. If none of
`tries` powers has one, the centre is cut at the last of them. -/
def search (i : Interval) : Nat → Int → Nat × Int
  | 0, exponent => ((i.center / (10 : Rat) ^ exponent).floor.toNat, exponent)
  | tries + 1, exponent =>
    match i.multiple? ((10 : Rat) ^ exponent) with
    | some digits => (digits, exponent)
    | none => search i tries (exponent - 1)

end Interval

/-- A power of ten above the double `mantissa * 2 ^ exponent`. The factor is just above the decimal logarithm
of two. -/
def exponentAbove (mantissa : Nat) (exponent : Int) : Int :=
  ((mantissa.log2 : Int) + 1 + exponent) * 30103 / 100000 + 1

/-- The shortest decimal `digits * 10 ^ exponent` that reads back to a positive double. Seventeen digits
always suffice, and the first power tried exceeds the double by less than three digits. -/
def shortest (mantissa : Nat) (exponent : Int) : Nat × Int :=
  (Interval.ofParts mantissa exponent).search 20 (exponentAbove mantissa exponent)

/-- The decimal `digits * 10 ^ exponent` written positionally. -/
def positional (digits : Nat) (exponent : Int) : Text :=
  let run := Decimal.ofNat digits
  if 0 ≤ exponent then run ++ List.replicate exponent.toNat '0'
  else
    let places := (-exponent).toNat
    let padded := List.replicate (places + 1 - run.length) '0' ++ run
    padded.take (padded.length - places) ++ '.' :: padded.drop (padded.length - places)

/-- The text of a reading. The two zeros and infinities differ in the minus sign. -/
def Reading.text : Reading → Text
  | .notANumber => "NaN".toList
  | .infinite negative => (if negative then ['-'] else []) ++ "inf".toList
  | .finite negative mantissa exponent =>
    (if negative then ['-'] else []) ++
      if mantissa == 0 then ['0']
      else positional (shortest mantissa exponent).1 (shortest mantissa exponent).2

/-- The text of a double. -/
def text (x : Float) : Text := (read x).text

end DocState.Double
