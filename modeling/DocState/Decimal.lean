import DocState.Text

/-!
# Decimal text of integers

* `Decimal.ofNat`, `Decimal.ofInt`: the decimal text of an integer, without leading zeros.
* `Decimal.value`: the natural number that a run of decimal digits denotes.
* `Decimal.isRun`: a non-empty text of decimal digits.
-/

namespace DocState.Decimal

/-- The decimal digits of `n`, the first one not zero unless `n` is zero. -/
def ofNat (n : Nat) : Text := Nat.toDigits 10 n

/-- The decimal digits of `i` after a minus sign if `i` is negative. -/
def ofInt : Int → Text
  | .ofNat n => ofNat n
  | .negSucc n => '-' :: ofNat (n + 1)

/-- The number that the decimal digits `digits` denote. -/
def value (digits : Text) : Nat := Nat.ofDigitChars 10 digits 0

/-- A non-empty text of decimal digits; digits of other scripts do not count. -/
def isRun (t : Text) : Bool := !t.isEmpty && t.all Char.isDigit

@[simp] theorem value_ofNat (n : Nat) : value (ofNat n) = n :=
  Nat.ofDigitChars_toDigits (by decide) (by decide)

@[simp] theorem isRun_ofNat (n : Nat) : isRun (ofNat n) = true := by
  simp only [isRun, ofNat, Bool.and_eq_true, Bool.not_eq_true', List.isEmpty_eq_false_iff, List.all_eq_true]
  exact ⟨Nat.toDigits_ne_nil, fun c hc => Nat.isDigit_of_mem_toDigits (by decide) (by decide) hc⟩

end DocState.Decimal
