/-!
# Doubles as exact numbers

* `Double.Reading`: what a binary64 floating-point number denotes: no number, an infinity, or a signed
  mantissa times a power of two.
* `Double.read`: the reading of a `Float`.
* `Double.value?`: the rational number that a finite double equals.
* `Double.towardZero`, `Double.nearest`: rational numbers to integers.
-/

namespace DocState.Double

/-- What a double denotes. The two zeros are finite readings with mantissa zero. -/
inductive Reading
  | notANumber
  | infinite (negative : Bool)
  /-- The number `mantissa * 2 ^ exponent`, or its opposite. -/
  | finite (negative : Bool) (mantissa : Nat) (exponent : Int)
deriving DecidableEq, Repr

/-- Whether a floating-point sign is the minus sign. -/
def isMinus : Float.Model.UnpackedFloat.Sign → Bool
  | .negative => true
  | .positive => false

/-- The reading of a double. A subnormal number has the least exponent and a short mantissa; the mantissa of
any other nonzero number has 53 bits. -/
def read (x : Float) : Reading :=
  match x.toModel.unpack with
  | .notANumber => .notANumber
  | .infinity s => .infinite (isMinus s)
  | .zero s => .finite (isMinus s) 0 0
  | .finite s mantissa exponent _ => .finite (isMinus s) mantissa exponent

/-- The rational number `mantissa * 2 ^ exponent`. -/
def scaled (mantissa : Nat) (exponent : Int) : Rat := (mantissa : Rat) * (2 : Rat) ^ exponent

/-- The rational number that a reading denotes, if it denotes one. -/
def Reading.value? : Reading → Option Rat
  | .finite negative mantissa exponent =>
    some (if negative then -scaled mantissa exponent else scaled mantissa exponent)
  | _ => none

/-- The rational number that a double equals; infinities and NaN equal none. -/
def value? (x : Float) : Option Rat := (read x).value?

/-- The number cut toward zero. -/
def towardZero (v : Rat) : Int := if v < 0 then v.ceil else v.floor

/-- The nearest integer; a number halfway between two integers goes to the one farther from zero. -/
def nearest (v : Rat) : Int := if v < 0 then (v - 1 / 2).ceil else (v + 1 / 2).floor

end DocState.Double
