import DocState.Decimal
import DocState.Error

/-!
# Numbers: the signed 64-bit integers that counters hold

* `Number.ofInt?`: an integer as a number, if it is in the range.
* `Number.plus`: the sum, held at the end of the range that it would leave.
* `Number.text`, `Number.ofText?`: decimal text and back.
* `Number.leading`: the number at the start of an argument; what follows its digits is ignored.
-/

namespace DocState

/-- A signed 64-bit integer. -/
abbrev Number := Int64

namespace Number

/-- The least number, `-2^63`. -/
def lowest : Int := -9223372036854775808

/-- The greatest number, `2^63 - 1`. -/
def highest : Int := 9223372036854775807

/-- The number equal to `i`, if `i` is in the range. -/
def ofInt? (i : Int) : Option Number :=
  if lowest ≤ i ∧ i ≤ highest then some (Int64.ofInt i) else none

/-- The sum of two numbers; a sum outside the range becomes the nearer end of the range. -/
def plus (a b : Number) : Number := Int64.ofIntClamp (a.toInt + b.toInt)

theorem lowest_le_toInt (n : Number) : lowest ≤ n.toInt := n.minValue_le_toInt

theorem toInt_le_highest (n : Number) : n.toInt ≤ highest := n.toInt_le

/-- A sum is cut at the ends of the range. -/
theorem toInt_plus (a b : Number) : (a.plus b).toInt = max lowest (min (a.toInt + b.toInt) highest) := by
  have hmin : Int64.minValue.toInt = lowest := by decide
  have hmax : Int64.maxValue.toInt = highest := by decide
  have hle : lowest ≤ highest := by decide
  unfold plus Int64.ofIntClamp
  split
  · split
    · rw [Int64.toInt_ofIntLE]
      omega
    · rw [hmax]
      omega
  · rw [hmin]
    omega

/-- Whether the number is even. -/
def isEven (n : Number) : Bool := n.toInt % 2 == 0

/-- The decimal text of a number. -/
def text (n : Number) : Text := Decimal.ofInt n.toInt

/-- A plus or minus sign. -/
def isSign (c : Char) : Bool := c == '+' || c == '-'

/-- The number that a text of an optional sign and decimal digits denotes, and nothing else. -/
def ofText? : Text → Option Number
  | '-' :: digits => if Decimal.isRun digits then ofInt? (-(Decimal.value digits : Int)) else none
  | '+' :: digits => if Decimal.isRun digits then ofInt? (Decimal.value digits) else none
  | digits => if Decimal.isRun digits then ofInt? (Decimal.value digits) else none

/-- The number at the start of a text: blanks, at most one sign and a run of digits, which has to be there
and is read as far as it goes. -/
def leading (t : Text) : Except Error Number :=
  let body := t.trimLeft
  let signs := body.takeWhile isSign
  let digits := (body.dropWhile isSign).takeWhile Char.isDigit
  match if signs.length ≤ 1 then ofText? (signs ++ digits) else none with
  | some n => .ok n
  | none => .error (.invalidNumber t)

end Number

end DocState
